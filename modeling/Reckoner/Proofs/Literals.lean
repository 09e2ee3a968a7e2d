/-
**Numbers are read back as they were written.**

A number without a sign is written as a numeral, and the numeral is a literal for that number.  For
an integer this is the usual account of decimal digits.  For a double it takes three steps: the
pattern of a finite double is below that of infinity, and packing the three fields of a pattern
undoes unpacking it; the decimal equal to a double is read as that double, and so is the shortest
one, which is only kept if it is; and the written form of a decimal denotes that decimal, up to a
zero at its end, which no reading depends on.

Main definitions:

* `Reckoner.Number.Plain` — the numbers that are written without a sign and in digits.

Main results:

* `Reckoner.Binary64.ofBits_toBits` — a double is given by its pattern;
* `Reckoner.Binary64.nearest_exact`, `Reckoner.Binary64.nearest_shortest` — **the exact and the
  shortest decimal of a double are read as that double**;
* `Reckoner.Binary64.nearest_ofText_chars` — so is the written form of such a decimal;
* `Reckoner.Number.isNumeral_chars`, `Reckoner.Number.ofLiteral_chars` — **a number without a sign
  is written as a numeral that denotes it**;
* `Reckoner.Number.not_mem_chars` — what no number is written with.
-/

import Reckoner.Proofs.Tiling
import Mathlib

set_option relaxedAutoImplicit false
set_option autoImplicit false

namespace Reckoner

/-! ### Decimals and their digits -/

namespace Decimal

theorem isDigit_of_mem_toDigits {n : Nat} {c : Char} (h : c ∈ Nat.toDigits 10 n) :
    c.isDigit = true :=
  Nat.isDigit_of_mem_toDigits (by omega) (by omega) h

theorem ofText_point {whole fraction : List Char} (h : ∀ c ∈ whole, c.isDigit = true) :
    ofText (whole ++ '.' :: fraction) = ⟨wholeOfText (whole ++ fraction), fraction.length⟩ := by
  have hne : ∀ c ∈ whole, (c != '.') = true := by
    intro c hc
    rw [bne, ne_point_of_isDigit (h c hc)]
    rfl
  simp [ofText, List.takeWhile_append_of_pos hne, List.dropWhile_append_of_pos hne]

/-- A whole number is read back with the zero behind its point. -/
theorem ofText_chars_of_whole (n : Nat) : ofText (chars ⟨n, 0⟩) = ⟨10 * n, 1⟩ := by
  rw [chars, if_pos rfl, ofText_point fun _ => isDigit_of_mem_toDigits, wholeOfText,
    Nat.ofDigitChars_append, Nat.ofDigitChars_ten_toDigits, Nat.ofDigitChars_eq_ofDigitChars_zero]
  rfl

/-- The digits behind the point fill all places of a fraction. -/
theorem length_fraction {d : Decimal} (h : 0 < d.places) :
    ((Nat.toDigits 10 (d.digits % 10 ^ d.places)).leftpad d.places '0').length = d.places := by
  have hlt : d.digits % 10 ^ d.places < 10 ^ d.places := Nat.mod_lt _ (Nat.pow_pos (by omega))
  rw [List.length_leftpad, Nat.max_eq_left ((Nat.length_toDigits_le_iff (by omega) h).2 hlt)]

/-- Any other fraction is read back as it is. -/
theorem ofText_chars_of_pos {d : Decimal} (h : 0 < d.places) : ofText d.chars = d := by
  have hne : d.places ≠ 0 := by omega
  have hvalue : wholeOfText (Nat.toDigits 10 (d.digits / 10 ^ d.places) ++
      (Nat.toDigits 10 (d.digits % 10 ^ d.places)).leftpad d.places '0') = d.digits := by
    -- the zeros in front of the fraction only move the whole part to the left
    rw [wholeOfText, Nat.ofDigitChars_append, Nat.ofDigitChars_ten_toDigits,
      Nat.ofDigitChars_eq_ofDigitChars_zero, length_fraction h, List.leftpad,
      Nat.ofDigitChars_append, Nat.ofDigitChars_replicate_zero, Nat.mul_zero,
      Nat.ofDigitChars_ten_toDigits, Nat.div_add_mod]
  rw [chars, if_neg hne]
  simp only [Nat.pow_eq]
  rw [ofText_point fun _ => isDigit_of_mem_toDigits, hvalue, length_fraction h]

/-- A decimal is written as a numeral with a point. -/
theorem isNumeral_chars (d : Decimal) : IsNumeral d.chars true := by
  rw [chars]
  split_ifs with h
  · refine .pointed Nat.toDigits_ne_nil (fun _ => isDigit_of_mem_toDigits) ?_
    intro c hc
    rw [List.mem_singleton.1 hc]
    decide
  · refine .pointed Nat.toDigits_ne_nil (fun _ => isDigit_of_mem_toDigits) ?_
    intro c hc
    rw [List.leftpad, List.mem_append] at hc
    rcases hc with hc | hc
    · rw [(List.mem_replicate.1 hc).2]
      decide
    · exact isDigit_of_mem_toDigits hc

end Decimal

namespace Binary64

/-! ### Reading the written form of a decimal -/

theorem roundHalfEven_mul_left {k : Nat} (hk : 0 < k) (num den : Nat) :
    roundHalfEven (k * num) (k * den) = roundHalfEven num den := by
  have hrest : 2 * (k * num % (k * den)) = k * (2 * (num % den)) := by
    rw [Nat.mul_mod_mul_left, Nat.mul_left_comm]
  simp only [roundHalfEven, Nat.mul_div_mul_left _ _ hk, hrest, Nat.mul_lt_mul_left hk]

theorem roundHalfEven_of_dvd {den : Nat} (hd : 0 < den) (q : Nat) :
    roundHalfEven (q * den) den = q := by
  simp only [roundHalfEven, Nat.mul_mod_left, Nat.mul_div_cancel _ hd, Nat.mul_zero, if_pos hd]

/-- A zero at the end of a fraction does not change the double it is read as. -/
theorem nearest_mul_ten (n p : Nat) : nearest ⟨10 * n, p + 1⟩ = nearest ⟨n, p⟩ := by
  have hten : 0 < 10 := by omega
  have hnum : 10 * n * Nat.pow 2 1074 = 10 * (n * Nat.pow 2 1074) := Nat.mul_assoc ..
  have hden : Nat.pow 10 (p + 1) = 10 * Nat.pow 10 p := Nat.pow_succ'
  unfold nearest
  simp only [hnum, hden, Nat.mul_div_mul_left _ _ hten, Nat.mul_assoc 10 (Nat.pow 10 p),
    roundHalfEven_mul_left hten]

theorem nearest_trim (n p : Nat) : nearest (Decimal.trim n p) = nearest ⟨n, p⟩ := by
  induction p generalizing n with
  | zero => rfl
  | succ p ih =>
      rw [Decimal.trim]
      split_ifs with h
      · rw [ih, ← nearest_mul_ten, Nat.mul_div_cancel' (Nat.dvd_of_mod_eq_zero h)]
      · rfl

/-- The written form of a decimal is read as the decimal itself. -/
theorem nearest_ofText_chars (d : Decimal) : nearest (Decimal.ofText d.chars) = nearest d := by
  obtain ⟨n, p⟩ := d
  rcases Nat.eq_zero_or_pos p with rfl | hp
  · rw [Decimal.ofText_chars_of_whole, nearest_mul_ten]
  · rw [Decimal.ofText_chars_of_pos hp]

/-! ### The shortest decimal -/

theorem nearest_of_neighbour {bits zeros : Nat} {d s : Decimal}
    (h : neighbour? bits d zeros = some s) : nearest s = bits := by
  simp only [neighbour?] at h
  split_ifs at h with hlow hhigh
  · rw [← Option.some.inj h]
    exact hlow.1
  · rw [← Option.some.inj h]
    exact hhigh

theorem nearest_shorten {bits : Nat} {d : Decimal} (h : nearest d = bits) (zeros : Nat) :
    nearest (shorten bits d zeros) = bits := by
  rw [shorten]
  cases hs : (List.range' 1 zeros).reverse.findSome? (neighbour? bits d) with
  | none => exact h
  | some s =>
      obtain ⟨zeros, -, hn⟩ := List.exists_of_findSome?_eq_some hs
      exact nearest_of_neighbour hn

/-! ### Exact decimals -/

theorem binade_eq : binade = 2 ^ 52 := rfl

theorem scale_of_lt {bits : Nat} (h : bits < binade) : scale bits = 0 := by
  rw [scale, Nat.div_eq_of_lt h]

theorem log2_mul_two_pow {n : Nat} (h : 0 < n) (s : Nat) :
    (n * Nat.pow 2 s).log2 = n.log2 + s := by
  rw [Nat.pow_eq]
  induction s with
  | zero => simp
  | succ s ih =>
      have hne : n * 2 ^ s ≠ 0 := Nat.mul_ne_zero (by omega) (Nat.ne_of_gt (Nat.two_pow_pos s))
      rw [Nat.pow_succ', Nat.mul_left_comm, Nat.log2_two_mul hne, ih, Nat.add_assoc]

theorem units_of_scale (m s k : Nat) : m * Nat.pow 2 (s - k) * Nat.pow 5 (k - s) * Nat.pow 2 k =
    m * Nat.pow 2 s * Nat.pow 10 (k - s) := by
  simp only [Nat.pow_eq]
  have htwo : 2 ^ (s - k) * 2 ^ k = 2 ^ s * 2 ^ (k - s) := by
    rw [← Nat.pow_add, ← Nat.pow_add]
    congr 1
    omega
  calc m * 2 ^ (s - k) * 5 ^ (k - s) * 2 ^ k
      = m * (2 ^ (s - k) * 2 ^ k) * 5 ^ (k - s) := by
        rw [Nat.mul_right_comm, Nat.mul_assoc m]
    _ = m * 2 ^ s * (2 ^ (k - s) * 5 ^ (k - s)) := by
        rw [htwo, Nat.mul_assoc, Nat.mul_assoc, Nat.mul_assoc]
    _ = m * 2 ^ s * 10 ^ (k - s) := by
        rw [← Nat.mul_pow]

/-- The units of the decimal equal to a double: its scaled significand. -/
theorem exact_units (bits : Nat) : (exact bits).digits * Nat.pow 2 1074 =
    significand bits * Nat.pow 2 (scale bits) * Nat.pow 10 (exact bits).places := by
  unfold exact
  -- that the units are this small plays no part, and the power is not to be computed
  generalize 1074 = k
  exact units_of_scale _ _ k

/-- The significand of a double keeps all the binary digits that reading leaves it. -/
theorem log2_units (bits : Nat) :
    (significand bits * Nat.pow 2 (scale bits)).log2 - 52 = scale bits := by
  by_cases h : bits < binade
  · -- a double below the normal ones is its own significand, and has no digits to spare
    rw [scale_of_lt h, significand, if_pos h, Nat.pow_eq, Nat.pow_zero, Nat.mul_one]
    rw [binade_eq] at h
    rcases Nat.eq_zero_or_pos bits with rfl | hpos
    · rfl
    · have hlog := (Nat.log2_lt (by omega)).2 h
      omega
  · have hlog : (binade + bits % binade).log2 = 52 := by
      rw [binade_eq, Nat.log2_eq_iff (by omega)]
      omega
    have hpos : 0 < binade + bits % binade := by
      rw [binade_eq]
      omega
    rw [significand, if_neg h, log2_mul_two_pow hpos, hlog, Nat.add_sub_cancel_left]

theorem scale_add_significand (bits : Nat) : scale bits * binade + significand bits = bits := by
  by_cases h : bits < binade
  · rw [scale_of_lt h, significand, if_pos h, Nat.zero_mul, Nat.zero_add]
  · rw [scale, significand, if_neg h]
    rw [binade_eq] at h ⊢
    omega

/-- **The decimal equal to a double is read as that double.** -/
theorem nearest_exact {bits : Nat} (h : bits < infinity) : nearest (exact bits) = bits := by
  have hden : 0 < Nat.pow 10 (exact bits).places := Nat.pow_pos (by omega)
  have hround : roundHalfEven ((exact bits).digits * Nat.pow 2 1074)
      (Nat.pow 10 (exact bits).places * Nat.pow 2 (scale bits)) = significand bits := by
    rw [exact_units, Nat.mul_assoc, Nat.mul_comm (Nat.pow 10 _)]
    exact roundHalfEven_of_dvd (Nat.mul_pos (Nat.two_pow_pos _) hden) _
  have hscale : ((exact bits).digits * Nat.pow 2 1074 / Nat.pow 10 (exact bits).places).log2 - 52 =
      scale bits := by
    rw [exact_units, Nat.mul_div_cancel _ hden, log2_units]
  unfold nearest
  simp only [hscale, hround, scale_add_significand]
  exact Nat.min_eq_left (Nat.le_of_lt h)

/-- **The shortest decimal of a double is read as that double.** -/
theorem nearest_shortest {bits : Nat} (h : bits < infinity) : nearest (shortest bits) = bits := by
  rw [shortest, nearest_trim]
  exact nearest_shorten (nearest_exact h) _

/-! ### Patterns -/

section

open Float.Model (Format)
open Float.Model.UnpackedFloat

theorem toBitVec_ofBitVec (v : BitVec 1) :
    (Float.Model.UnpackedFloat.Sign.ofBitVec v).toBitVec = v := by
  revert v
  decide

/-- A pattern consists of its three fields. -/
theorem packComponents_fields (b : BitVec 64) :
    packComponents Format.binary64
      (Float.Model.UnpackedFloat.Sign.ofBitVec (@unpackSign Format.binary64 b))
      (@unpackExponent Format.binary64 b) (@unpackMantissa Format.binary64 b) = b := by
  simp only [packComponents, toBitVec_ofBitVec, unpackSign, unpackExponent, unpackMantissa]
  -- every bit lies in the stretch of one field
  ext i hi
  simp only [BitVec.getElem_append]
  split_ifs <;> simp [*] <;> grind

theorem toNat_one_append (v : BitVec 52) : (1#1 ++ v).toNat = 2 ^ 52 + v.toNat := by
  rw [BitVec.toNat_append, ← Nat.shiftLeft_add_eq_or_of_lt v.isLt, BitVec.toNat_one (by omega),
    Nat.one_shiftLeft]

/-- The fields of a double in normal form are packed unchanged. -/
theorem pack_normal (s : Float.Model.UnpackedFloat.Sign) (e : BitVec 11) (m : BitVec 52)
    (hmax : e ≠ -1#11) (h : 0 < (1#1 ++ m).toNat) :
    pack Format.binary64 (.finite s (1#1 ++ m).toNat
      ((e.toNat : Int) - (Format.binary64.exponentBias +
        Format.binary64.mantissaBitsWithoutImplicit)) h) =
      packComponents Format.binary64 s e m := by
  have hm := m.isLt
  have he : e.toNat + 1 < 2 ^ 11 := by
    have hlt := e.isLt
    have hne : e.toNat ≠ 2047 := fun h => hmax (BitVec.eq_of_toNat_eq h)
    omega
  have hlog : (2 ^ 52 + m.toNat).log2 = 52 := by
    rw [Nat.log2_eq_iff (by omega)]
    omega
  have hexponent : ((e.toNat : Int) - (Format.binary64.exponentBias +
      Format.binary64.mantissaBitsWithoutImplicit) + Format.binary64.exponentBias +
      Format.binary64.mantissaBitsWithoutImplicit).toNat = e.toNat := by omega
  -- the leading digit of the significand is not stored
  have hfraction : BitVec.ofNat 52 (2 ^ 52 + m.toNat) = m := by
    apply BitVec.eq_of_toNat_eq
    rw [BitVec.toNat_ofNat, Nat.add_mod_left, Nat.mod_eq_of_lt hm]
  simp only [pack, toNat_one_append, hlog, hexponent]
  rw [if_neg (by omega), if_pos (by decide), hfraction, BitVec.ofNat_toNat, BitVec.setWidth_eq]

/-- So are those of a double below the normal ones. -/
theorem pack_subnormal (s : Float.Model.UnpackedFloat.Sign) (m : BitVec 52) (e : Int)
    (h : 0 < m.toNat) (he : e + Format.binary64.exponentBias +
      Format.binary64.mantissaBitsWithoutImplicit = 1) :
    pack Format.binary64 (.finite s m.toNat e h) = packComponents Format.binary64 s 0#11 m := by
  have hlog : m.toNat.log2 < 52 := (Nat.log2_lt (by omega)).2 m.isLt
  simp only [pack, he]
  rw [if_neg (by decide), if_neg]
  · simp
  · simp only [Format.mantissaBits]
    omega

/-- **Packing undoes unpacking**, as there is one pattern only for all that is not a number. -/
theorem pack_unpack {b : BitVec 64} (h : Format.binary64.Valid b) :
    pack Format.binary64 (unpack Format.binary64 b) = b := by
  have hsplit := packComponents_fields b
  simp only [unpack]
  split_ifs with hmax hzero hlow hzero
  · rw [hmax, hzero] at hsplit
    exact hsplit
  · exact (h.eq_packedNaN hmax hzero).symm
  · rw [hlow, hzero] at hsplit
    exact hsplit
  · rw [hlow] at hsplit
    rw [pack_subnormal, hsplit]
    rw [hlow]
    decide
  · rw [pack_normal _ _ _ hmax, hsplit]

/-- **A double is given by its pattern.** -/
theorem ofBits_toBits (x : Float) : Float.ofBits x.toBits = x := by
  obtain ⟨⟨bits, valid⟩⟩ := x
  simp only [Float.ofBits, Float.toBits, Float.Model.ofBits, Float.Model.pack,
    pack_unpack valid, UInt64.ofBitVec_toBitVec]

theorem toNat_unpackExponent (b : BitVec 64) :
    (@unpackExponent Format.binary64 b).toNat = b.toNat / 2 ^ 52 % 2 ^ 11 := by
  simp [unpackExponent, BitVec.extractLsb, Nat.shiftRight_eq_div_pow]

theorem toNat_unpackMantissa (b : BitVec 64) :
    (@unpackMantissa Format.binary64 b).toNat = b.toNat % 2 ^ 52 := by
  simp [unpackMantissa, BitVec.extractLsb]

section

variable {x : Float}

theorem magnitude_eq (x : Float) : magnitude x = x.toBits.toNat % 2 ^ 63 := rfl

/-- The exponent of what is not finite. -/
theorem exponent_eq_iff :
    @unpackExponent Format.binary64 x.toBits.toBitVec = -1#11 ↔ infinity ≤ magnitude x := by
  have hfield : @unpackExponent Format.binary64 x.toBits.toBitVec = -1#11 ↔
      x.toBits.toNat / 2 ^ 52 % 2 ^ 11 = 2047 := by
    rw [← BitVec.toNat_inj, toNat_unpackExponent]
    rfl
  rw [hfield, magnitude_eq, infinity, binade_eq]
  omega

/-- The pattern of infinity is one of exponent alone. -/
theorem eq_infinity_iff : magnitude x = infinity ↔
    @unpackExponent Format.binary64 x.toBits.toBitVec = -1#11 ∧
      @unpackMantissa Format.binary64 x.toBits.toBitVec = 0#52 := by
  have hfield : @unpackMantissa Format.binary64 x.toBits.toBitVec = 0#52 ↔
      x.toBits.toNat % 2 ^ 52 = 0 := by
    rw [← BitVec.toNat_inj, toNat_unpackMantissa]
    rfl
  rw [exponent_eq_iff, hfield, magnitude_eq, infinity, binade_eq]
  omega

/-- **The finite doubles are those below infinity**, whatever their sign. -/
theorem isFinite_iff : x.isFinite = true ↔ magnitude x < infinity := by
  rw [← Nat.not_le, ← exponent_eq_iff]
  simp only [Float.isFinite, Float.Model.isFinite, Float.Model.unpack, unpack, Float.toBits]
  split_ifs <;> simp_all [isFinite]

theorem isInf_iff : x.isInf = true ↔ magnitude x = infinity := by
  rw [eq_infinity_iff]
  simp only [Float.isInf, Float.Model.isInf, Float.Model.unpack, unpack, Float.toBits]
  split_ifs <;> simp_all [isInf]

/-- What is not a number lies beyond infinity. -/
theorem isNaN_iff : x.isNaN = true ↔ infinity < magnitude x := by
  rw [Nat.lt_iff_le_and_ne, ← exponent_eq_iff, ne_comm, Ne, eq_infinity_iff]
  simp only [Float.isNaN, Float.Model.isNaN, Float.Model.unpack, unpack, Float.toBits]
  split_ifs <;> simp_all [isNaN]

theorem isNaN_of_isFinite (h : x.isFinite = true) : x.isNaN = false := by
  rw [← Bool.not_eq_true, isNaN_iff]
  exact Nat.lt_asymm (isFinite_iff.1 h)

theorem isInf_of_isFinite (h : x.isFinite = true) : x.isInf = false := by
  rw [← Bool.not_eq_true, isInf_iff]
  exact Nat.ne_of_lt (isFinite_iff.1 h)

theorem isNegative_iff : isNegative x = true ↔ 2 ^ 63 ≤ x.toBits.toNat := decide_eq_true_iff

theorem magnitude_of_isNegative_eq_false (h : isNegative x = false) :
    magnitude x = x.toBits.toNat :=
  Nat.mod_eq_of_lt (Nat.lt_of_not_le (of_decide_eq_false h))

/-- A finite double is written as its shortest decimal, behind its sign if it has one. -/
theorem chars_of_isFinite (h : x.isFinite = true) :
    chars x = (if isNegative x then ['-'] else []) ++ (shortest (magnitude x)).chars := by
  simp only [chars, isNaN_of_isFinite h, isInf_of_isFinite h, Bool.false_eq_true, if_false]

/-- Without a sign, it is the decimal alone. -/
theorem chars_of_isNegative_eq_false (hf : x.isFinite = true) (hs : isNegative x = false) :
    chars x = (shortest (magnitude x)).chars := by
  rw [chars_of_isFinite hf, hs]
  rfl

end

end

/-- **A finite double without a sign is read back from its written form.** -/
theorem ofDecimal_ofText_chars {x : Float} (hf : x.isFinite = true) (hs : isNegative x = false) :
    ofDecimal (Decimal.ofText (chars x)) = x := by
  rw [chars_of_isNegative_eq_false hf hs, ofDecimal, nearest_ofText_chars,
    nearest_shortest (isFinite_iff.1 hf), magnitude_of_isNegative_eq_false hs, UInt64.ofNat_toNat,
    ofBits_toBits]

end Binary64

/-! ### Numbers without a sign -/

namespace Number

/-- The number has no sign and is written in digits: it is an integer that is not negative, or a
finite double with its sign bit clear. -/
def Plain : Number → Prop
  | int value => 0 ≤ value.toInt
  | float value => value.isFinite = true ∧ Binary64.isNegative value = false

theorem chars_int_of_nonneg {value : Int64} (h : 0 ≤ value.toInt) :
    (int value).chars = Nat.toDigits 10 value.toInt.natAbs := by
  rw [chars, if_neg (by omega), List.nil_append]

/-- **A number without a sign is written as a numeral**, with a point exactly if it is a double. -/
theorem isNumeral_chars {v : Number} (h : v.Plain) : IsNumeral v.chars v.isFloat := by
  cases v with
  | int value =>
      rw [chars_int_of_nonneg h]
      exact .whole Nat.toDigits_ne_nil fun _ => Decimal.isDigit_of_mem_toDigits
  | float value =>
      rw [chars, Binary64.chars_of_isNegative_eq_false h.1 h.2]
      exact Decimal.isNumeral_chars _

/-- **The numeral denotes the number.** -/
theorem ofLiteral_chars {v : Number} (h : v.Plain) : ofLiteral v.chars = v := by
  have hpoint := (isNumeral_chars h).mem_point_iff
  cases v with
  | int value =>
      have hsize : ((value.toInt.natAbs : Nat) : Int) = value.toInt := Int.natAbs_of_nonneg h
      have hfits : fitted? value.toInt = some value := fitted?_eq_some_iff.2 rfl
      rw [ofLiteral, if_neg (by simpa [isFloat] using hpoint), chars_int_of_nonneg h,
        Decimal.wholeOfText, Nat.ofDigitChars_ten_toDigits, hsize, hfits]
  | float value =>
      rw [ofLiteral, if_pos (by simpa [isFloat] using hpoint), chars,
        Binary64.ofDecimal_ofText_chars h.1 h.2]

/-- Numbers are written with digits and these characters only, also where they are negative or not
finite. -/
def marks : List Char := ['-', '.', 'i', 'n', 'f', 'N', 'a']

theorem not_mem_chars {c : Char} (hd : c.isDigit = false) (hm : c ∉ marks) (v : Number) :
    c ∉ v.chars := by
  simp only [marks, List.mem_cons, List.not_mem_nil, or_false, not_or] at hm
  cases v with
  | int n =>
      have hdigits : c ∉ Nat.toDigits 10 n.toInt.natAbs := fun hmem =>
        Bool.false_ne_true (hd.symm.trans (Decimal.isDigit_of_mem_toDigits hmem))
      rw [chars, List.mem_append, not_or]
      refine ⟨?_, hdigits⟩
      split <;> simp [hm]
  | float x =>
      have hdecimal : c ∉ (Binary64.shortest (Binary64.magnitude x)).chars :=
        (Decimal.isNumeral_chars _).not_mem hd hm.2.1
      simp only [chars, Binary64.chars]
      split
      · simp [hm]
      · rw [List.mem_append, not_or]
        constructor
        · split <;> simp [hm]
        · split
          · simp [hm]
          · exact hdecimal

end Number

end Reckoner
