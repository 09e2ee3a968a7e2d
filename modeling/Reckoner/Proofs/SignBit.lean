/-
**The sign of a double is a bit of its own.**

A double is its sign bit and its magnitude, the pattern of the other bits.  The opposite of a double
has the other sign bit and the same magnitude; the exception is the value that is not a number,
which has one pattern only.  So the opposite of the opposite is the double itself, zeros and
infinities included, and a double with a minus sign is written as its opposite behind the sign.

Reading a decimal gives a double without a minus sign, with the pattern that the decimal is read as.

Main results:

* `Reckoner.Binary64.magnitude_neg`, `Reckoner.Binary64.isNegative_neg` — **the opposite of a double
  differs from it in the sign bit alone**;
* `Reckoner.Binary64.neg_neg` — taken twice it is the double again;
* `Reckoner.Binary64.chars_of_isNegative` — the written form of a double with a minus sign;
* `Reckoner.Binary64.isNegative_ofDecimal`, `Reckoner.Binary64.isFinite_ofDecimal_iff` — the double
  that a decimal is read as has no minus sign, and is finite if its pattern is below infinity.
-/

import Reckoner.Proofs.Literals
import Mathlib

set_option relaxedAutoImplicit false
set_option autoImplicit false

namespace Reckoner.Binary64

open Float.Model (Format)
open Float.Model.UnpackedFloat

/-! ### The opposite of a double -/

/-- The opposite of what is a number is packed with the other sign bit. -/
theorem exists_components {u : Float.Model.UnpackedFloat} (h : u.isNaN = false) :
    ∃ (s : Float.Model.UnpackedFloat.Sign) (e : BitVec 11) (m : BitVec 52),
      pack Format.binary64 u = packComponents Format.binary64 s e m ∧
        pack Format.binary64 u.neg = packComponents Format.binary64 (-s) e m := by
  cases u with
  | notANumber => cases h
  | infinity s => exact ⟨s, _, _, rfl, rfl⟩
  | zero s => exact ⟨s, _, _, rfl, rfl⟩
  | finite s m e hm =>
      simp only [Float.Model.UnpackedFloat.neg, pack]
      split_ifs
      · exact ⟨s, _, _, rfl, rfl⟩
      · exact ⟨s, _, _, rfl, rfl⟩
      · exact ⟨s, _, _, rfl, rfl⟩

theorem toNat_packComponents (s : Float.Model.UnpackedFloat.Sign) (e : BitVec 11) (m : BitVec 52) :
    (packComponents Format.binary64 s e m).toNat =
      s.toBitVec.toNat * 2 ^ 63 + (e.toNat * 2 ^ 52 + m.toNat) := by
  have hlow : (s.toBitVec ++ e ++ m).toNat = (s.toBitVec ++ e).toNat * 2 ^ 52 + m.toNat := by
    rw [BitVec.toNat_append, ← Nat.shiftLeft_add_eq_or_of_lt m.isLt, Nat.shiftLeft_eq]
  have hhigh : (s.toBitVec ++ e).toNat = s.toBitVec.toNat * 2 ^ 11 + e.toNat := by
    rw [BitVec.toNat_append, ← Nat.shiftLeft_add_eq_or_of_lt e.isLt, Nat.shiftLeft_eq]
  rw [packComponents]
  change (s.toBitVec ++ e ++ m).toNat = _
  rw [hlow, hhigh]
  omega

/-- The patterns of a double and of its opposite. -/
theorem exists_toBits_neg {x : Float} (h : x.isNaN = false) :
    ∃ (s : Float.Model.UnpackedFloat.Sign) (size : Nat), size < 2 ^ 63 ∧
      x.toBits.toNat = s.toBitVec.toNat * 2 ^ 63 + size ∧
        (-x).toBits.toNat = (-s).toBitVec.toNat * 2 ^ 63 + size := by
  obtain ⟨⟨bits, valid⟩⟩ := x
  obtain ⟨s, e, m, hu, hneg⟩ := exists_components (u := unpack Format.binary64 bits.toBitVec) h
  rw [pack_unpack valid] at hu
  refine ⟨s, e.toNat * 2 ^ 52 + m.toNat, ?_, ?_, ?_⟩
  · have he := e.isLt
    have hm := m.isLt
    omega
  · rw [← toNat_packComponents, ← hu]
    rfl
  · rw [← toNat_packComponents, ← hneg]
    rfl

theorem magnitude_neg_of_number {x : Float} (h : x.isNaN = false) :
    magnitude (-x) = magnitude x := by
  obtain ⟨s, size, hsize, hx, hneg⟩ := exists_toBits_neg h
  rw [magnitude_eq, magnitude_eq, hx, hneg]
  omega

/-- What is not a number has one pattern only, and is its own opposite. -/
theorem neg_of_isNaN {x : Float} (h : x.isNaN = true) : -x = x := by
  obtain ⟨⟨bits, valid⟩⟩ := x
  have hu : unpack Format.binary64 bits.toBitVec = .notANumber := by
    cases hu : unpack Format.binary64 bits.toBitVec with
    | notANumber => rfl
    | _ => simp [Float.isNaN, Float.Model.isNaN, Float.Model.unpack, isNaN, hu] at h
  have hpack :
      pack Format.binary64 (Float.Model.UnpackedFloat.neg .notANumber) = bits.toBitVec := by
    rw [← pack_unpack valid, hu]
    rfl
  have hbits : (-(Float.ofModel ⟨bits, valid⟩)).toBits = bits := by
    change UInt64.ofBitVec (pack Format.binary64 (unpack Format.binary64 bits.toBitVec).neg) = bits
    rw [hu, hpack, UInt64.ofBitVec_toBitVec]
  rw [← ofBits_toBits (-_), hbits]
  exact ofBits_toBits ⟨⟨bits, valid⟩⟩

theorem magnitude_neg (x : Float) : magnitude (-x) = magnitude x := by
  cases h : x.isNaN with
  | false => exact magnitude_neg_of_number h
  | true => rw [neg_of_isNaN h]

theorem isNaN_neg (x : Float) : (-x).isNaN = x.isNaN := by
  rw [Bool.eq_iff_iff, isNaN_iff, isNaN_iff, magnitude_neg]

theorem isFinite_neg (x : Float) : (-x).isFinite = x.isFinite := by
  rw [Bool.eq_iff_iff, isFinite_iff, isFinite_iff, magnitude_neg]

theorem isNegative_neg {x : Float} (h : x.isNaN = false) : isNegative (-x) = !isNegative x := by
  obtain ⟨s, size, hsize, hx, hneg⟩ := exists_toBits_neg h
  have hbit : (-s).toBitVec.toNat = 1 - s.toBitVec.toNat ∧ s.toBitVec.toNat ≤ 1 := by
    cases s <;> decide
  rw [Bool.eq_iff_iff, Bool.not_eq_true', ← Bool.not_eq_true, isNegative_iff, isNegative_iff, hx,
    hneg]
  omega

/-- A double is given by its sign bit and its magnitude. -/
theorem eq_of_magnitude {x y : Float} (hm : magnitude x = magnitude y)
    (hs : isNegative x = isNegative y) : x = y := by
  have hbits : x.toBits.toNat = y.toBits.toNat := by
    have hx := x.toBits.toNat_lt
    have hy := y.toBits.toNat_lt
    rw [Bool.eq_iff_iff, isNegative_iff, isNegative_iff] at hs
    rw [magnitude_eq, magnitude_eq] at hm
    omega
  rw [← ofBits_toBits x, ← ofBits_toBits y, UInt64.toNat_inj.1 hbits]

/-- **The opposite of the opposite of a double is the double.** -/
theorem neg_neg (x : Float) : -(-x) = x := by
  cases h : x.isNaN with
  | true => rw [neg_of_isNaN h, neg_of_isNaN h]
  | false =>
      have h' : (-x).isNaN = false := by rw [isNaN_neg, h]
      refine eq_of_magnitude (by rw [magnitude_neg, magnitude_neg]) ?_
      rw [isNegative_neg h', isNegative_neg h, Bool.not_not]

/-- A finite double with a minus sign is written as its opposite behind the sign. -/
theorem chars_of_isNegative {x : Float} (hf : x.isFinite = true) (hs : isNegative x = true) :
    chars x = '-' :: chars (-x) := by
  have hf' : (-x).isFinite = true := by rw [isFinite_neg, hf]
  have hs' : isNegative (-x) = false := by rw [isNegative_neg (isNaN_of_isFinite hf), hs]; rfl
  rw [chars_of_isNegative_eq_false hf' hs', magnitude_neg, chars_of_isFinite hf, hs]
  rfl

/-! ### The double that a decimal is read as -/

/-- A pattern up to that of infinity is that of a double. -/
theorem toBits_ofBits {b : UInt64} (h : b.toNat ≤ infinity) : (Float.ofBits b).toBits = b := by
  have hvalid : Format.binary64.Valid b.toBitVec := by
    -- a pattern with the exponent of infinity has no fraction then
    refine ⟨fun he hm => absurd ?_ hm⟩
    rw [← BitVec.toNat_inj, toNat_unpackExponent] at he
    rw [← BitVec.toNat_inj, toNat_unpackMantissa]
    change b.toNat / 2 ^ 52 % 2 ^ 11 = 2047 at he
    change b.toNat % 2 ^ 52 = 0
    rw [infinity, binade_eq] at h
    omega
  change UInt64.ofBitVec (pack Format.binary64 (unpack Format.binary64 b.toBitVec)) = b
  rw [pack_unpack hvalid, UInt64.ofBitVec_toBitVec]

theorem nearest_le_infinity (d : Decimal) : nearest d ≤ infinity := Nat.min_le_right _ _

theorem infinity_lt : infinity < 2 ^ 63 := by
  rw [infinity, binade_eq]
  omega

theorem toNat_toBits_ofDecimal (d : Decimal) : (ofDecimal d).toBits.toNat = nearest d := by
  have hle := nearest_le_infinity d
  have hlt := infinity_lt
  have hsize : (UInt64.ofNat (nearest d)).toNat = nearest d :=
    UInt64.toNat_ofNat_of_lt' (Nat.lt_of_le_of_lt hle (by simp only [UInt64.size]; omega))
  rw [ofDecimal, toBits_ofBits (by rw [hsize]; exact hle), hsize]

theorem isNegative_ofDecimal (d : Decimal) : isNegative (ofDecimal d) = false := by
  have hle := nearest_le_infinity d
  have hlt := infinity_lt
  rw [← Bool.not_eq_true, isNegative_iff, toNat_toBits_ofDecimal]
  omega

theorem magnitude_ofDecimal (d : Decimal) : magnitude (ofDecimal d) = nearest d := by
  rw [magnitude_of_isNegative_eq_false (isNegative_ofDecimal d), toNat_toBits_ofDecimal]

/-- A decimal is read as a finite double or as infinity. -/
theorem isNaN_ofDecimal (d : Decimal) : (ofDecimal d).isNaN = false := by
  rw [← Bool.not_eq_true, isNaN_iff, magnitude_ofDecimal]
  exact Nat.not_lt.2 (nearest_le_infinity d)

/-- **A decimal is read as a finite double exactly if its pattern is below that of infinity.** -/
theorem isFinite_ofDecimal_iff {d : Decimal} :
    (ofDecimal d).isFinite = true ↔ nearest d < infinity := by
  rw [isFinite_iff, magnitude_ofDecimal]

/-- What is not finite then is infinity. -/
theorem isInf_ofDecimal {d : Decimal} (h : ¬ (ofDecimal d).isFinite = true) :
    (ofDecimal d).isInf = true := by
  rw [isFinite_ofDecimal_iff] at h
  rw [isInf_iff, magnitude_ofDecimal]
  exact Nat.le_antisymm (nearest_le_infinity d) (Nat.not_lt.1 h)

/-- Infinity is written in letters. -/
theorem chars_ofDecimal_of_overflow {d : Decimal} (h : ¬ (ofDecimal d).isFinite = true) :
    chars (ofDecimal d) = ['i', 'n', 'f'] := by
  rw [chars, isNaN_ofDecimal, isNegative_ofDecimal, isInf_ofDecimal h]
  rfl

end Reckoner.Binary64
