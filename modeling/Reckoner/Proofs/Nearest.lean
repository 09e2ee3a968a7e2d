/-
**Decimals are read as the nearest double.**

`Reckoner/Binary64.lean` reads a decimal by a computation on patterns.  This module says what comes
of it in terms of numbers.  A finite double is a rational number, told by its sign, its significand
and its exponent; the double that a decimal is read as is at least as near to the decimal as any
other, and where another one is just as near, the pattern of the chosen one is even.  What is half a
unit or more above the largest double is read as infinity.

All distances are compared in units of `2 ^ -1074`, of which every finite double is a whole number,
and are multiplied by the denominator of the decimal, so that only natural numbers are compared.
The doubles with a larger exponent than the chosen one are on the same grid as it is, and there
rounding takes care of them; those with a smaller exponent are all below the power of two that the
decimal has passed.

Main definitions:

* `Reckoner.Decimal.toRat`, `Reckoner.Binary64.toRat` — the rational numbers that decimals and
  finite doubles are;
* `Reckoner.Binary64.units` — a finite double without its sign as a whole number of units;
* `Reckoner.Binary64.IsNearest` — **the double nearest to a rational number**.

Main results:

* `Reckoner.Binary64.roundHalfEven_nearest`, `Reckoner.Binary64.roundHalfEven_even` — rounding to
  whole numbers;
* `Reckoner.Binary64.toRat_eq` — a double by its units;
* `Reckoner.Binary64.isNearest_ofDecimal` — **a decimal is read as the double nearest to it**;
* `Reckoner.Binary64.IsNearest.eq` — there is no other one, apart from the sign of zero.
-/

import Reckoner.Proofs.WrittenNumbers
import Mathlib

set_option relaxedAutoImplicit false
set_option autoImplicit false

namespace Reckoner

/-- The rational number that a decimal is. -/
def Decimal.toRat (d : Decimal) : ℚ := d.digits / 10 ^ d.places

namespace Binary64

open Float.Model (Format)
open Float.Model.UnpackedFloat

/-- The rational number that a finite double is.  What is not finite counts for zero. -/
def toRat (x : Float) : ℚ :=
  match x.toModel.unpack with
  | .finite s m e _ => (s.apply m : ℤ) * 2 ^ e
  | _ => 0

/-- The double `x` is the one nearest to `q`: it is infinite if `q` is half a unit or more above the
largest double, and otherwise no finite double is nearer to `q`, and its pattern is even if another
one is as near. -/
structure IsNearest (q : ℚ) (x : Float) : Prop where
  isFinite_iff : x.isFinite = true ↔ q < 2 ^ 1024 - 2 ^ 970
  isInf : ¬ x.isFinite = true → x.isInf = true
  closest : x.isFinite = true → ∀ y : Float, y.isFinite = true → |q - toRat x| ≤ |q - toRat y|
  even : x.isFinite = true → ∀ y : Float, y.isFinite = true → |q - toRat x| = |q - toRat y| →
    toRat x ≠ toRat y → magnitude x % 2 = 0

/-! ### Whole numbers -/

section Whole

variable {num den : Nat}

/-- A quotient is rounded down if at most half is lost, and up if at least half is. -/
theorem roundHalfEven_cases (num den : Nat) :
    roundHalfEven num den = num / den ∧ 2 * (num % den) ≤ den ∨
      roundHalfEven num den = num / den + 1 ∧ den ≤ 2 * (num % den) := by
  simp only [roundHalfEven]
  split_ifs <;> omega

/-- The rounded multiple is at most half a unit away. -/
theorem two_mul_dist_roundHalfEven_le (num : Nat) (hden : 0 < den) :
    2 * Nat.dist num (roundHalfEven num den * den) ≤ den := by
  have hsplit := Nat.div_add_mod' num den
  have hrest := Nat.mod_lt num hden
  rcases roundHalfEven_cases num den with ⟨hround, hhalf⟩ | ⟨hround, hhalf⟩
  · rw [hround, Nat.dist]
    omega
  · rw [hround, Nat.succ_mul (num / den), Nat.dist]
    omega

/-- If it is half a unit away, the quotient is half a unit above a whole number. -/
theorem roundHalfEven_even_of_half (hden : 0 < den)
    (h : 2 * Nat.dist num (roundHalfEven num den * den) = den) :
    roundHalfEven num den % 2 = 0 := by
  have hsplit := Nat.div_add_mod' num den
  have hrest := Nat.mod_lt num hden
  have hhalf : 2 * (num % den) = den := by
    rcases roundHalfEven_cases num den with ⟨hround, -⟩ | ⟨hround, -⟩
    · rw [hround, Nat.dist] at h
      omega
    · rw [hround, Nat.succ_mul (num / den), Nat.dist] at h
      omega
  simp only [roundHalfEven]
  rw [if_neg (by omega), if_neg (by omega)]
  omega

/-- Two multiples are at least a unit apart, and so are on the way over any number. -/
theorem le_dist_add_dist {k m : Nat} (h : k ≠ m) (num den : Nat) :
    den ≤ Nat.dist num (m * den) + Nat.dist num (k * den) := by
  rw [Nat.dist, Nat.dist]
  rcases Nat.lt_or_gt_of_ne h with hlt | hgt
  · have hapart := Nat.mul_le_mul_right den (Nat.succ_le_of_lt hlt)
    rw [Nat.succ_mul] at hapart
    omega
  · have hapart := Nat.mul_le_mul_right den (Nat.succ_le_of_lt hgt)
    rw [Nat.succ_mul] at hapart
    omega

/-- **No multiple is nearer than the rounded one.** -/
theorem roundHalfEven_nearest (hden : 0 < den) (k : Nat) :
    Nat.dist num (roundHalfEven num den * den) ≤ Nat.dist num (k * den) := by
  by_cases hk : k = roundHalfEven num den
  · rw [hk]
  · have hhalf := two_mul_dist_roundHalfEven_le num hden
    have hapart := le_dist_add_dist hk num den
    omega

/-- **If another one is as near, the rounded one is even.** -/
theorem roundHalfEven_even (hden : 0 < den) {k : Nat} (hk : k ≠ roundHalfEven num den)
    (htie : Nat.dist num (roundHalfEven num den * den) = Nat.dist num (k * den)) :
    roundHalfEven num den % 2 = 0 := by
  have hhalf := two_mul_dist_roundHalfEven_le num hden
  have hapart := le_dist_add_dist hk num den
  exact roundHalfEven_even_of_half hden (by omega)

end Whole

/-! ### Doubles in units -/

/-- The number of units of `2 ^ -1074` in the finite double with pattern `bits`. -/
def units (bits : Nat) : Nat := significand bits * 2 ^ scale bits

theorem significand_lt (bits : Nat) : significand bits < 2 ^ 53 := by
  rw [significand, binade_eq]
  split_ifs <;> omega

/-- A double below the normal ones is its own number of units. -/
theorem units_of_lt {bits : Nat} (h : bits < binade) : units bits = bits := by
  rw [units, significand, if_pos h, scale_of_lt h, Nat.pow_zero, Nat.mul_one]

/-- The double with significand `m` and exponent `s`.  A significand of `2 ^ 53` has carried into
the exponent. -/
theorem units_add {s m : Nat} (hm : m ≤ 2 ^ 53) (hs : s = 0 ∨ 2 ^ 52 ≤ m) :
    units (s * binade + m) = m * 2 ^ s := by
  rcases Nat.lt_or_ge m binade with hlow | hlow
  · obtain rfl : s = 0 := by
      rw [binade_eq] at hlow
      omega
    rw [Nat.zero_mul, Nat.zero_add, units_of_lt hlow, Nat.pow_zero, Nat.mul_one]
  · rw [units, significand, scale, if_neg (by omega)]
    rw [binade_eq] at hlow ⊢
    rcases Nat.lt_or_eq_of_le hm with hlt | rfl
    · have hrest : (s * 2 ^ 52 + m) % 2 ^ 52 = m - 2 ^ 52 := by omega
      have hexponent : (s * 2 ^ 52 + m) / 2 ^ 52 - 1 = s := by omega
      rw [hrest, hexponent, Nat.add_sub_cancel' hlow]
    · have hrest : (s * 2 ^ 52 + 2 ^ 53) % 2 ^ 52 = 0 := by omega
      have hexponent : (s * 2 ^ 52 + 2 ^ 53) / 2 ^ 52 - 1 = s + 1 := by omega
      rw [hrest, hexponent, Nat.pow_succ]
      omega

/-- A double is on the grid of the exponent `s`, or it is smaller than all doubles of this exponent
in normal form. -/
theorem units_grid (bits s : Nat) :
    (∃ k, units bits = k * 2 ^ s) ∨ 0 < s ∧ units bits < 2 ^ 52 * 2 ^ s := by
  rcases Nat.lt_or_ge (scale bits) s with h | h
  · refine Or.inr ⟨Nat.zero_lt_of_lt h, ?_⟩
    calc units bits
        < 2 ^ 53 * 2 ^ scale bits :=
          Nat.mul_lt_mul_of_pos_right (significand_lt bits) (Nat.two_pow_pos _)
      _ = 2 ^ 52 * 2 ^ (scale bits + 1) := by rw [Nat.pow_succ]; omega
      _ ≤ 2 ^ 52 * 2 ^ s := Nat.mul_le_mul_left _ (Nat.pow_le_pow_right (by omega) h)
  · left
    refine ⟨significand bits * 2 ^ (scale bits - s), ?_⟩
    rw [units, Nat.mul_assoc, ← Nat.pow_add, Nat.sub_add_cancel h]

/-- The next pattern stands for more units. -/
theorem units_lt_succ (bits : Nat) : units bits < units (bits + 1) := by
  have hnext : bits + 1 = scale bits * binade + (significand bits + 1) := by
    rw [← Nat.add_assoc, scale_add_significand]
  have hnormal : scale bits = 0 ∨ 2 ^ 52 ≤ significand bits + 1 := by
    by_cases hlow : bits < binade
    · exact Or.inl (scale_of_lt hlow)
    · right
      rw [significand, if_neg hlow, binade_eq]
      omega
  rw [hnext, units_add (significand_lt bits) hnormal, units]
  exact Nat.mul_lt_mul_of_pos_right (Nat.lt_succ_self _) (Nat.two_pow_pos _)

/-- **Larger patterns stand for more units.** -/
theorem units_strictMono : StrictMono units := strictMono_nat_of_lt_succ units_lt_succ

/-! ### Nearest patterns -/

section Rounded

variable {num den s : Nat}

/-- **No double is nearer than the one with the rounded significand**, if the exponent is that of
the quotient.  If another one is as near, the significand is even. -/
theorem rounded_closest (hden : 0 < den) (hlow : s = 0 ∨ 2 ^ 52 * (den * 2 ^ s) ≤ num)
    (bits : Nat) :
    Nat.dist num (roundHalfEven num (den * 2 ^ s) * 2 ^ s * den) ≤
        Nat.dist num (units bits * den) ∧
      (Nat.dist num (roundHalfEven num (den * 2 ^ s) * 2 ^ s * den) =
          Nat.dist num (units bits * den) →
        units bits ≠ roundHalfEven num (den * 2 ^ s) * 2 ^ s →
        roundHalfEven num (den * 2 ^ s) % 2 = 0) := by
  have hunit : 0 < den * 2 ^ s := Nat.mul_pos hden (Nat.two_pow_pos s)
  have hscaled (m : Nat) : m * 2 ^ s * den = m * (den * 2 ^ s) := by
    rw [Nat.mul_assoc, Nat.mul_comm (2 ^ s)]
  rcases units_grid bits s with ⟨k, hk⟩ | ⟨hpos, hsmall⟩
  · -- on the same grid it is all a matter of rounding
    rw [hk, hscaled, hscaled]
    refine ⟨roundHalfEven_nearest hunit k, fun htie hne => roundHalfEven_even hunit ?_ htie⟩
    rintro rfl
    exact hne rfl
  · -- a double with a smaller exponent is below a power of two that the quotient has passed
    have hpassed := hlow.resolve_left (Nat.ne_of_gt hpos)
    have hbelow : units bits * den < 2 ^ 52 * (den * 2 ^ s) := by
      rw [← hscaled]
      exact Nat.mul_lt_mul_of_pos_right hsmall hden
    have hnearest : Nat.dist num (roundHalfEven num (den * 2 ^ s) * (den * 2 ^ s)) ≤
        Nat.dist num (2 ^ 52 * (den * 2 ^ s)) := roundHalfEven_nearest hunit (2 ^ 52)
    rw [hscaled]
    rw [Nat.dist, Nat.dist] at hnearest ⊢
    exact ⟨by omega, fun htie => by omega⟩

end Rounded

/-- The pattern that a decimal is read as: its exponent is that of the decimal, and its significand
is rounded. -/
theorem nearest_eq {d : Decimal} (h : nearest d < infinity) : ∃ s : Nat,
    (s = 0 ∨ 2 ^ 52 * (10 ^ d.places * 2 ^ s) ≤ d.digits * 2 ^ 1074) ∧
      nearest d = s * binade + roundHalfEven (d.digits * 2 ^ 1074) (10 ^ d.places * 2 ^ s) ∧
      units (nearest d) =
        roundHalfEven (d.digits * 2 ^ 1074) (10 ^ d.places * 2 ^ s) * 2 ^ s := by
  have hden : 0 < 10 ^ d.places := Nat.pow_pos (by omega)
  unfold nearest at h ⊢
  simp only [Nat.pow_eq] at h ⊢
  -- that the units are this small plays no part, and the power is not to be computed
  generalize 1074 = k at h ⊢
  generalize d.digits * 2 ^ k = num at h ⊢
  generalize 10 ^ d.places = den at h hden ⊢
  obtain ⟨s, hs⟩ : ∃ s, s = (num / den).log2 - 52 := ⟨_, rfl⟩
  rw [← hs] at h ⊢
  have hunit : 0 < den * 2 ^ s := Nat.mul_pos hden (Nat.two_pow_pos s)
  have hhigh := lt_of_log2 hden hs
  have hlow : s = 0 ∨ 2 ^ 52 * (den * 2 ^ s) ≤ num :=
    (Nat.eq_zero_or_pos s).imp_right (le_of_log2 hden hs)
  have hle : roundHalfEven num (den * 2 ^ s) ≤ 2 ^ 53 :=
    Nat.le_trans (roundHalfEven_le _ _) ((Nat.div_lt_iff_lt_mul hunit).2 hhigh)
  have hge : s = 0 ∨ 2 ^ 52 ≤ roundHalfEven num (den * 2 ^ s) := hlow.imp_right fun hlow =>
    Nat.le_trans ((Nat.le_div_iff_mul_le hunit).2 hlow) (le_roundHalfEven _ _)
  have hmin : min (s * binade + roundHalfEven num (den * 2 ^ s)) infinity =
      s * binade + roundHalfEven num (den * 2 ^ s) := by
    omega
  exact ⟨s, hlow, hmin, by rw [hmin, units_add hle hge]⟩

/-- **No double is nearer to a decimal than the one that it is read as**, in units and multiplied by
the denominator of the decimal.  If another one is as near, the pattern is even. -/
theorem nearest_closest {d : Decimal} (h : nearest d < infinity) (bits : Nat) :
    Nat.dist (d.digits * 2 ^ 1074) (units (nearest d) * 10 ^ d.places) ≤
        Nat.dist (d.digits * 2 ^ 1074) (units bits * 10 ^ d.places) ∧
      (Nat.dist (d.digits * 2 ^ 1074) (units (nearest d) * 10 ^ d.places) =
          Nat.dist (d.digits * 2 ^ 1074) (units bits * 10 ^ d.places) →
        units bits ≠ units (nearest d) → nearest d % 2 = 0) := by
  have hden : 0 < 10 ^ d.places := Nat.pow_pos (by omega)
  obtain ⟨s, hlow, hbits, hunits⟩ := nearest_eq h
  obtain ⟨hle, heven⟩ := rounded_closest hden hlow bits
  rw [hunits]
  refine ⟨hle, fun htie hne => ?_⟩
  have hsignificand := heven htie hne
  rw [hbits, binade_eq]
  omega

/-! ### Doubles as rational numbers -/

theorem apply_ofBitVec (v : BitVec 1) (m : Nat) :
    (((Float.Model.UnpackedFloat.Sign.ofBitVec v).apply m : ℤ) : ℚ) =
      (if v = 1#1 then -1 else 1) * m := by
  have hv : v = 0#1 ∨ v = 1#1 := by
    revert v
    decide
  rcases hv with rfl | rfl <;> simp [Float.Model.UnpackedFloat.Sign.ofBitVec,
    Float.Model.UnpackedFloat.Sign.apply]

theorem unpackSign_eq_one_iff {x : Float} :
    @unpackSign Format.binary64 x.toBits.toBitVec = 1#1 ↔ isNegative x = true := by
  have hlt := x.toBits.toNat_lt
  have hfield : (@unpackSign Format.binary64 x.toBits.toBitVec).toNat =
      x.toBits.toNat / 2 ^ 63 % 2 := by
    simp [unpackSign, BitVec.extractLsb, Nat.shiftRight_eq_div_pow]
  rw [isNegative_iff, ← BitVec.toNat_inj, hfield]
  change _ = 1 ↔ _
  omega

theorem mul_zpow_sub (m e k : Nat) :
    (m : ℚ) * 2 ^ ((e : ℤ) - k) = ((m * 2 ^ e : Nat) : ℚ) / 2 ^ k := by
  rw [zpow_sub₀ two_ne_zero, zpow_natCast, zpow_natCast]
  push_cast
  rw [mul_div_assoc]

/-- The magnitude of a double consists of its exponent and its mantissa. -/
theorem magnitude_fields (x : Float) : magnitude x =
    (@unpackExponent Format.binary64 x.toBits.toBitVec).toNat * 2 ^ 52 +
      (@unpackMantissa Format.binary64 x.toBits.toBitVec).toNat := by
  have hexponent := toNat_unpackExponent x.toBits.toBitVec
  have hmantissa := toNat_unpackMantissa x.toBits.toBitVec
  change _ = x.toBits.toNat / 2 ^ 52 % 2 ^ 11 at hexponent
  change _ = x.toBits.toNat % 2 ^ 52 at hmantissa
  rw [magnitude_eq, hexponent, hmantissa]
  omega

/-- The units of a double by its exponent and its mantissa. -/
theorem units_fields (e : Nat) {m : Nat} (hm : m < 2 ^ 52) :
    units (e * 2 ^ 52 + m) = (if e = 0 then m else 2 ^ 52 + m) * 2 ^ (e - 1) := by
  cases e with
  | zero =>
      rw [Nat.zero_mul, Nat.zero_add, units_of_lt (by rwa [binade_eq]), if_pos rfl, Nat.zero_sub,
        Nat.pow_zero, Nat.mul_one]
  | succ e =>
      have hcarry : (e + 1) * 2 ^ 52 + m = e * binade + (2 ^ 52 + m) := by
        rw [binade_eq]
        omega
      rw [hcarry, units_add (by omega) (Or.inr (by omega)), if_neg (Nat.succ_ne_zero e),
        Nat.add_sub_cancel]

/-- **A finite double is its number of units**, with its sign. -/
theorem toRat_eq {x : Float} (h : x.isFinite = true) : toRat x =
    (if isNegative x then -1 else 1) * ((units (magnitude x) : ℚ) / 2 ^ 1074) := by
  have hfinite : @unpackExponent Format.binary64 x.toBits.toBitVec ≠ -1#11 := by
    rw [Ne, exponent_eq_iff, Nat.not_le]
    exact isFinite_iff.1 h
  -- the sign plays the same part in all cases
  obtain ⟨σ, hσ⟩ : ∃ σ : ℚ, (if isNegative x then -1 else 1) = σ := ⟨_, rfl⟩
  have hsigned (m : Nat) : (((Float.Model.UnpackedFloat.Sign.ofBitVec
      (@unpackSign Format.binary64 x.toBits.toBitVec)).apply m : ℤ) : ℚ) = σ * m := by
    simp only [apply_ofBitVec, unpackSign_eq_one_iff, hσ]
  have hvalue : toRat x = match unpack Format.binary64 x.toBits.toBitVec with
      | .finite s m e _ => ((s.apply m : ℤ) : ℚ) * 2 ^ e
      | _ => 0 := rfl
  have hbias : ((Format.binary64.exponentBias : ℤ) +
      (Format.binary64.mantissaBitsWithoutImplicit : ℤ)) = 1075 := rfl
  have hm := (@unpackMantissa Format.binary64 x.toBits.toBitVec).isLt
  rw [hvalue, hσ, magnitude_fields, units_fields _ hm]
  simp only [unpack, if_neg hfinite]
  by_cases hlow : @unpackExponent Format.binary64 x.toBits.toBitVec = 0#11
  · have hexponent : (@unpackExponent Format.binary64 x.toBits.toBitVec).toNat = 0 := by
      rw [hlow]
      rfl
    rw [if_pos hlow, if_pos hexponent]
    by_cases hzero : @unpackMantissa Format.binary64 x.toBits.toBitVec = 0#52
    · rw [dif_pos hzero, hzero]
      simp
    · -- below the normal doubles
      have he : ((@unpackExponent Format.binary64 x.toBits.toBitVec).toNat : ℤ) - 1075 + 1 =
          ((@unpackExponent Format.binary64 x.toBits.toBitVec).toNat - 1 : ℕ) - (1074 : ℕ) := by
        omega
      rw [dif_neg hzero]
      dsimp only
      rw [hsigned, hbias, he, mul_assoc, mul_zpow_sub]
  · -- the normal doubles
    have hexponent : (@unpackExponent Format.binary64 x.toBits.toBitVec).toNat ≠ 0 :=
      fun hzero => hlow (BitVec.eq_of_toNat_eq hzero)
    have he : ((@unpackExponent Format.binary64 x.toBits.toBitVec).toNat : ℤ) - 1075 =
        ((@unpackExponent Format.binary64 x.toBits.toBitVec).toNat - 1 : ℕ) - (1074 : ℕ) := by
      omega
    rw [if_neg hlow, if_neg hexponent]
    dsimp only
    rw [hsigned, hbias, he, mul_assoc, toNat_one_append, mul_zpow_sub]

/-! ### The nearest double -/

theorem cast_dist (m n : Nat) : (Nat.dist m n : ℚ) = |(m : ℚ) - n| := by
  rcases Nat.le_total m n with h | h
  · rw [Nat.dist_eq_sub_of_le h, Nat.cast_sub h, abs_sub_comm, abs_of_nonneg]
    exact sub_nonneg.2 (Nat.cast_le.2 h)
  · rw [Nat.dist_eq_sub_of_le_right h, Nat.cast_sub h, abs_of_nonneg]
    exact sub_nonneg.2 (Nat.cast_le.2 h)

/-- The distance of a decimal from a whole number of units, over a common denominator. -/
theorem abs_toRat_sub (d : Decimal) (u k : Nat) : |d.toRat - (u : ℚ) / 2 ^ k| =
    (Nat.dist (d.digits * 2 ^ k) (u * 10 ^ d.places) : ℚ) / (10 ^ d.places * 2 ^ k) := by
  have hplaces : (0 : ℚ) < 10 ^ d.places := by positivity
  have hunit : (0 : ℚ) < 2 ^ k := by positivity
  rw [cast_dist, Decimal.toRat, div_sub_div _ _ hplaces.ne' hunit.ne', abs_div,
    abs_of_pos (mul_pos hplaces hunit)]
  push_cast
  rw [mul_comm (10 ^ d.places : ℚ) u]

theorem abs_toRat {y : Float} (h : y.isFinite = true) :
    |toRat y| = (units (magnitude y) : ℚ) / 2 ^ 1074 := by
  have hnonneg : (0 : ℚ) ≤ (units (magnitude y) : ℚ) / 2 ^ 1074 := by positivity
  rw [toRat_eq h, abs_mul, abs_of_nonneg hnonneg]
  split_ifs <;> simp

theorem toRat_of_isNegative_eq_false {x : Float} (hx : x.isFinite = true)
    (hs : isNegative x = false) : toRat x = (units (magnitude x) : ℚ) / 2 ^ 1074 := by
  rw [toRat_eq hx, hs]
  simp

theorem toRat_ofDecimal {d : Decimal} (h : (ofDecimal d).isFinite = true) :
    toRat (ofDecimal d) = (units (nearest d) : ℚ) / 2 ^ 1074 := by
  rw [toRat_of_isNegative_eq_false h (isNegative_ofDecimal d), magnitude_ofDecimal]

/-- A decimal is nearer to a double without a minus sign than to the opposite of that. -/
theorem abs_toRat_sub_le (d : Decimal) {y : Float} (h : y.isFinite = true) :
    |d.toRat - (units (magnitude y) : ℚ) / 2 ^ 1074| ≤ |d.toRat - toRat y| := by
  have hnonneg : 0 ≤ d.toRat := by
    rw [Decimal.toRat]
    positivity
  have hle := abs_abs_sub_abs_le d.toRat (toRat y)
  rwa [abs_of_nonneg hnonneg, abs_toRat h] at hle

/-- No pattern stands for a number of units that is nearer. -/
theorem abs_toRat_sub_ofDecimal_le {d : Decimal} (h : (ofDecimal d).isFinite = true) (bits : Nat) :
    |d.toRat - toRat (ofDecimal d)| ≤ |d.toRat - (units bits : ℚ) / 2 ^ 1074| := by
  have hcommon : (0 : ℚ) < 10 ^ d.places * 2 ^ 1074 := by positivity
  rw [toRat_ofDecimal h, abs_toRat_sub, abs_toRat_sub, div_le_div_iff_of_pos_right hcommon,
    Nat.cast_le]
  exact (nearest_closest (isFinite_ofDecimal_iff.1 h) bits).1

/-- If another number of units is as near, the pattern is even. -/
theorem nearest_even {d : Decimal} (h : (ofDecimal d).isFinite = true) {bits : Nat}
    (htie : |d.toRat - toRat (ofDecimal d)| = |d.toRat - (units bits : ℚ) / 2 ^ 1074|)
    (hne : units bits ≠ units (nearest d)) : nearest d % 2 = 0 := by
  have hcommon : (10 ^ d.places * 2 ^ 1074 : ℚ) ≠ 0 := by positivity
  rw [toRat_ofDecimal h, abs_toRat_sub, abs_toRat_sub, div_left_inj' hcommon, Nat.cast_inj] at htie
  exact (nearest_closest (isFinite_ofDecimal_iff.1 h) bits).2 htie hne

/-- The opposite of the double is farther away, unless both are zero. -/
theorem abs_toRat_sub_ne_of_neg {d : Decimal} {r : ℚ} (h : (ofDecimal d).isFinite = true)
    (hr : r = -toRat (ofDecimal d)) (hne : toRat (ofDecimal d) ≠ r) :
    |d.toRat - toRat (ofDecimal d)| ≠ |d.toRat - r| := by
  subst hr
  intro htie
  have hx : toRat (ofDecimal d) ≠ 0 := fun hzero => hne (by rw [hzero, neg_zero])
  have hd : d.toRat = 0 := by
    rcases abs_eq_abs.1 htie with heq | heq <;> by_contra
    · exact hx (by linarith)
    · exact absurd (show d.toRat = 0 by linarith) ‹_›
  -- zero is read as zero
  have hle := abs_toRat_sub_ofDecimal_le h 0
  have hunits : units 0 = 0 := units_of_lt (by decide)
  rw [hd, hunits, Nat.cast_zero, zero_div, sub_zero, abs_zero, zero_sub, abs_neg] at hle
  exact hx (abs_nonpos_iff.1 hle)

theorem isFinite_ofDecimal_iff_toRat {d : Decimal} :
    (ofDecimal d).isFinite = true ↔ d.toRat < 2 ^ 1024 - 2 ^ 970 := by
  have hplaces : (0 : ℚ) < 10 ^ d.places := by positivity
  have hbound : (2 : ℚ) ^ 1024 - 2 ^ 970 = (((2 ^ 54 - 1) * 2 ^ 970 : Nat) : ℚ) := by
    have hsplit : (2 : ℚ) ^ 1024 = 2 ^ 54 * 2 ^ 970 := by rw [← pow_add]
    rw [hsplit]
    generalize 970 = k
    push_cast
    ring
  rw [isFinite_ofDecimal_iff, nearest_lt_infinity_iff, Decimal.toRat, hbound,
    div_lt_iff₀ hplaces]
  exact_mod_cast Iff.rfl

/-- **A decimal is read as the double nearest to it.** -/
theorem isNearest_ofDecimal (d : Decimal) : IsNearest d.toRat (ofDecimal d) where
  isFinite_iff := isFinite_ofDecimal_iff_toRat
  isInf := isInf_ofDecimal
  closest hx y hy := le_trans (abs_toRat_sub_ofDecimal_le hx _) (abs_toRat_sub_le d hy)
  even := by
    intro hx y hy htie hne
    rw [magnitude_ofDecimal]
    by_cases hsame : units (magnitude y) = units (nearest d)
    · have habs : |toRat y| = toRat (ofDecimal d) := by
        rw [abs_toRat hy, hsame, toRat_ofDecimal hx]
      rcases eq_or_eq_neg_of_abs_eq habs with heq | heq
      · exact absurd heq.symm hne
      · exact absurd htie (abs_toRat_sub_ne_of_neg hx heq hne)
    · -- the double without the minus sign is as near
      have hle := abs_toRat_sub_ofDecimal_le hx (magnitude y)
      have hge := abs_toRat_sub_le d hy
      exact nearest_even hx (le_antisymm hle (by rwa [htie])) hsame

/-! ### No other nearest double -/

/-- Every pattern below infinity is that of a double without a minus sign. -/
theorem exists_magnitude_eq {bits : Nat} (h : bits < infinity) :
    ∃ z : Float, z.isFinite = true ∧ isNegative z = false ∧ magnitude z = bits := by
  have hlt := infinity_lt
  have hsize : (UInt64.ofNat bits).toNat = bits :=
    UInt64.toNat_ofNat_of_lt' (by simp only [UInt64.size]; omega)
  have hbits : (Float.ofBits (UInt64.ofNat bits)).toBits.toNat = bits := by
    rw [toBits_ofBits (by omega), hsize]
  have hsign : isNegative (Float.ofBits (UInt64.ofNat bits)) = false := by
    rw [← Bool.not_eq_true, isNegative_iff, hbits]
    omega
  have hmag : magnitude (Float.ofBits (UInt64.ofNat bits)) = bits := by
    rw [magnitude_of_isNegative_eq_false hsign, hbits]
  exact ⟨_, isFinite_iff.2 (by rwa [hmag]), hsign, hmag⟩

theorem toRat_lt_toRat {x y : Float} (hx : x.isFinite = true) (hy : y.isFinite = true)
    (hsx : isNegative x = false) (hsy : isNegative y = false) (h : magnitude x < magnitude y) :
    toRat x < toRat y := by
  have hunit : (0 : ℚ) < 2 ^ 1074 := by positivity
  rw [toRat_of_isNegative_eq_false hx hsx, toRat_of_isNegative_eq_false hy hsy,
    div_lt_div_iff_of_pos_right hunit, Nat.cast_lt]
  exact units_strictMono h

/-- Of two doubles that are both nearest, neither is the smaller one. -/
theorem not_nearest_of_lt {q : ℚ} {x y : Float} (hx : IsNearest q x) (hy : IsNearest q y)
    (hfx : x.isFinite = true) (hfy : y.isFinite = true)
    (hsx : isNegative x = false) (hsy : isNegative y = false) : ¬ magnitude x < magnitude y := by
  intro hlt
  have htie := le_antisymm (hx.closest hfx y hfy) (hy.closest hfy x hfx)
  have hxy := toRat_lt_toRat hfx hfy hsx hsy hlt
  have hevenx := hx.even hfx y hfy htie hxy.ne
  have heveny := hy.even hfy x hfx htie.symm hxy.ne'
  -- both patterns are even, so that there is one between them
  obtain ⟨z, hfz, hsz, hz⟩ := exists_magnitude_eq
    (show magnitude x + 1 < infinity from Nat.lt_of_le_of_lt hlt (isFinite_iff.1 hfy))
  have hxz := toRat_lt_toRat hfx hfz hsx hsz (by omega)
  have hzy := toRat_lt_toRat hfz hfy hsz hsy (by omega)
  have hclosest := hx.closest hfx z hfz
  rcases abs_eq_abs.1 htie with heq | heq
  · linarith
  · have hhalf : q = (toRat x + toRat y) / 2 := by linarith
    have hpos : |q - toRat x| = (toRat y - toRat x) / 2 := by
      rw [hhalf, abs_of_pos] <;> linarith
    have hlt' : |q - toRat z| < (toRat y - toRat x) / 2 := by
      rw [hhalf, abs_lt]
      constructor <;> linarith
    linarith

/-- **There is one nearest double only**, apart from the sign of zero. -/
theorem IsNearest.eq {q : ℚ} {x y : Float} (hx : IsNearest q x) (hy : IsNearest q y)
    (hsx : isNegative x = false) (hsy : isNegative y = false) : x = y := by
  refine eq_of_magnitude ?_ (hsx.trans hsy.symm)
  by_cases hfx : x.isFinite = true
  · have hfy : y.isFinite = true := hy.isFinite_iff.2 (hx.isFinite_iff.1 hfx)
    have hle := not_nearest_of_lt hx hy hfx hfy hsx hsy
    have hge := not_nearest_of_lt hy hx hfy hfx hsy hsx
    omega
  · have hfy : ¬ y.isFinite = true := fun h => hfx (hx.isFinite_iff.2 (hy.isFinite_iff.1 h))
    rw [isInf_iff.1 (hx.isInf hfx), isInf_iff.1 (hy.isInf hfy)]

end Binary64

end Reckoner
