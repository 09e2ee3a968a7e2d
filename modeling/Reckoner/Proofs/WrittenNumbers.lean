/-
**Numbers are fed back as they were printed.**

What is printed of a result can be calculated again.  A number without a sign is printed as a
numeral, which denotes it.  A number with a minus sign is printed as its opposite behind the sign,
so it comes back through the sign's arithmetic; this goes wrong for the least integer alone, as its
opposite fits no machine integer, and the double equal to it comes back in its place.

Numerals denote more than is printed as a numeral.  One that is too large for a double is read as
infinity, and infinity is printed in letters, which belong to no token.

Main definitions:

* `Reckoner.Number.IsFinite` — the numbers other than infinities and the value that is no number;
* `Reckoner.IsLiteralFor` — the texts that are one numeral, with separators around it.

Main results:

* `Reckoner.calculate_text` — **a finite number is the value of its text**, unless it is the least
  integer;
* `Reckoner.Binary64.nearest_lt_infinity_iff` — which decimals are read as finite doubles;
* `Reckoner.literal_rereads_iff` — **what is printed of a literal is read as the same number
  exactly if the literal is not too large for a double**, and is no text of tokens otherwise.
-/

import Reckoner.Proofs.Composition
import Reckoner.Proofs.Exactness
import Reckoner.Proofs.SignBit
import Mathlib

set_option relaxedAutoImplicit false
set_option autoImplicit false

namespace Reckoner

open Grammar

/-! ### Numerals as texts -/

/-- The lexeme that a numeral makes. -/
def Lexeme.numeral (literal : List Char) (pointed : Bool) (p : Position) : Lexeme :=
  ⟨literal, ⟨if pointed then .decimal else .integer, some (Number.ofLiteral literal), p⟩⟩

section Numeral

variable {literal : List Char} {pointed : Bool}

theorem isNumber_numeral (literal : List Char) (pointed : Bool) (p : Position) :
    IsNumber (Lexeme.numeral literal pointed p).token (Number.ofLiteral literal) :=
  isNumber_literal pointed _ p

/-- A numeral is a text of one lexeme. -/
theorem tiles_numeral (h : IsNumeral literal pointed) (p : Position) :
    Tiles p literal [.numeral literal pointed p] := by
  have hends : EndsNumeral [] := by simp [EndsNumeral]
  have htiles : Tiles p (literal ++ []) [.numeral literal pointed p] :=
    .lexeme (l := .numeral literal pointed p) rfl (.numeral h) (fun _ => hends) .done
  rwa [List.append_nil] at htiles

theorem cut?_numeral (h : IsNumeral literal pointed) :
    cut? literal = some [(Lexeme.numeral literal pointed Position.start).token] :=
  cut?_of_tiles (tiles_numeral h _)

/-- The value of a numeral. -/
theorem calculate_numeral (settings : Settings) (h : IsNumeral literal pointed) :
    (calculate settings (String.ofList literal)).value = .ok (Number.ofLiteral literal) := by
  have hderives : Derives (.chain .expression) [(Lexeme.numeral literal pointed .start).token]
      (.literal (Number.ofLiteral literal) .start) 0 :=
    .single (.single (.number (isNumber_numeral literal pointed _)))
  refine calculate_eq_ok_iff.2 ⟨_, _, 0, ?_, hderives, Nat.zero_le _, rfl⟩
  rw [String.toList_ofList, cut?_numeral h]

/-- The value of a numeral behind a sign, which takes a level of nesting. -/
theorem calculate_signed_numeral {settings : Settings} (hdepth : 1 ≤ settings.maxDepth)
    (sign : Sign) (h : IsNumeral literal pointed) :
    (calculate settings (String.ofList (sign.symbol :: literal))).value =
      .ok (sign.apply (Number.ofLiteral literal)) := by
  obtain ⟨kind, hsymbol, hsign⟩ := sign.exists_kind
  have hoperand : Derives .factor [(Lexeme.numeral literal pointed .start).token]
      (.literal (Number.ofLiteral literal) .start) 0 :=
    .number (isNumber_numeral literal pointed _)
  have hderives := Derives.signed (t := ⟨kind, none, .start⟩) hsign hoperand
  refine calculate_eq_ok_iff.2 ⟨_, _, 1, ?_, .single (.single hderives), hdepth, rfl⟩
  rw [String.toList_ofList, cut?_cons_symbol hsymbol, cut?_numeral h]
  rfl

end Numeral

/-! ### Finite numbers -/

namespace Number

/-- The number is an integer or a finite double. -/
def IsFinite : Number → Prop
  | int _ => True
  | float value => value.isFinite = true

/-- A number with a minus sign is printed as its opposite behind the sign.  The least integer has
no opposite. -/
theorem exists_opposite {v : Number} (hv : v.IsFinite) (hmin : v ≠ .int Int64.minValue)
    (hp : ¬ v.Plain) :
    ∃ w : Number, w.Plain ∧ v.chars = '-' :: w.chars ∧ Sign.minus.apply w = v := by
  cases v with
  | int a =>
      -- the opposite is in range, as the integer is not the least one
      have hneg : a.toInt < 0 := Int.not_le.1 hp
      have hne : a ≠ Int64.minValue := fun heq => hmin (congrArg int heq)
      obtain ⟨b, hb⟩ := (isMachineInteger_neg hne).exists_toInt
      have hplain : (int b).Plain := show 0 ≤ b.toInt by omega
      refine ⟨int b, hplain, ?_, Sign.apply_eq_int_iff.2 ⟨b, rfl, ?_⟩⟩
      · rw [chars_int_of_nonneg hplain, ← hb, Int.natAbs_neg, chars, if_pos hneg]
        rfl
      · rw [Sign.exact, ← hb, Int.neg_neg]
  | float x =>
      -- the opposite of the opposite is the double itself, zeros included
      have hs : Binary64.isNegative x = true := by
        rw [← Bool.not_eq_false]
        exact fun hs => hp ⟨hv, hs⟩
      have hopposite : Binary64.isNegative (-x) = false := by
        rw [Binary64.isNegative_neg (Binary64.isNaN_of_isFinite hv), hs]
        rfl
      refine ⟨float (-x), ⟨(Binary64.isFinite_neg x).trans hv, hopposite⟩, ?_, ?_⟩
      · exact Binary64.chars_of_isNegative hv hs
      · exact congrArg float (Binary64.neg_neg x)

end Number

/-- The least integer is read as a double: what is behind its sign fits no machine integer. -/
theorem calculate_text_minValue {settings : Settings} (hdepth : 1 ≤ settings.maxDepth) :
    (calculate settings (Number.int Int64.minValue).text).value =
      .ok (.float (-9223372036854775808)) := by
  have hliteral : IsNumeral (Nat.toDigits 10 Int64.minValue.toInt.natAbs) false :=
    .whole Nat.toDigits_ne_nil fun _ => Decimal.isDigit_of_mem_toDigits
  have hvalue : Sign.minus.apply (Number.ofLiteral (Nat.toDigits 10 Int64.minValue.toInt.natAbs)) =
      .float (-9223372036854775808) := by
    decide +kernel
  have hread := calculate_signed_numeral hdepth .minus hliteral
  rwa [hvalue] at hread

/-- **A finite number is the value of its own text**, if a sign may be opened, and unless it is the
least integer; the text of this one has the double equal to it for its value. -/
theorem calculate_text (settings : Settings) (hdepth : 1 ≤ settings.maxDepth) (v : Number)
    (hv : v.IsFinite) :
    ((calculate settings v.text).value = .ok v ↔ v ≠ .int Int64.minValue) ∧
      (calculate settings (Number.int Int64.minValue).text).value =
        .ok (.float (-9223372036854775808)) := by
  refine ⟨⟨?_, fun hmin => ?_⟩, calculate_text_minValue hdepth⟩
  · rintro hback rfl
    rw [calculate_text_minValue hdepth] at hback
    cases hback
  · by_cases hp : v.Plain
    · have hread := calculate_numeral settings (Number.isNumeral_chars hp)
      rwa [Number.ofLiteral_chars hp] at hread
    · obtain ⟨w, hw, hchars, hvalue⟩ := Number.exists_opposite hv hmin hp
      have hread := calculate_signed_numeral hdepth .minus (Number.isNumeral_chars hw)
      rw [Number.ofLiteral_chars hw, hvalue] at hread
      rw [Number.text, hchars]
      exact hread

/-- A negative zero keeps its sign, by which alone it differs from the other one. -/
theorem calculate_text_negative_zero :
    (Number.float (-0.0)).text = "-0.0" ∧
    (calculate { maxDepth := 1 } "-0.0").value = .ok (.float (-0.0)) ∧
    Number.float (-0.0) ≠ .float 0.0 := by
  have htext : (Number.float (-0.0)).text = "-0.0" := by decide +kernel
  have hfinite : (Number.float (-0.0)).IsFinite := show (-0.0 : Float).isFinite = true by
    decide +kernel
  have hback := (calculate_text { maxDepth := 1 } (by decide) _ hfinite).1.2 (by decide)
  rw [htext] at hback
  exact ⟨htext, hback, by decide +kernel⟩

/-! ### Decimals that are too large -/

namespace Binary64

/-- A quotient is rounded to at most an odd number if it is less than half above it. -/
theorem roundHalfEven_le_iff (num : Nat) {den m : Nat} (hden : 0 < den) (hm : m % 2 = 1) :
    roundHalfEven num den ≤ m ↔ 2 * num < (2 * m + 1) * den := by
  have hsplit : den * (num / den) + num % den = num := Nat.div_add_mod num den
  have hrest := Nat.mod_lt num hden
  have hexpand : (2 * m + 1) * den = 2 * (den * m) + den := by ring
  rw [roundHalfEven]
  rcases Nat.lt_trichotomy (num / den) m with hq | hq | hq
  · have hstep : den * (num / den) + den ≤ den * m := by
      rw [← Nat.mul_succ]
      exact Nat.mul_le_mul_left den hq
    refine iff_of_true ?_ (by omega)
    split_ifs <;> omega
  · rw [hq] at hsplit ⊢
    split_ifs <;> omega
  · have hstep : den * m + den ≤ den * (num / den) := by
      rw [← Nat.mul_succ]
      exact Nat.mul_le_mul_left den hq
    refine iff_of_false ?_ (by omega)
    split_ifs <;> omega

theorem le_roundHalfEven (num den : Nat) : num / den ≤ roundHalfEven num den := by
  simp only [roundHalfEven]
  split_ifs <;> omega

theorem roundHalfEven_le (num den : Nat) : roundHalfEven num den ≤ num / den + 1 := by
  simp only [roundHalfEven]
  split_ifs <;> omega

/-- The whole part of a quotient has 53 binary digits once some of its digits are given up. -/
theorem le_of_log2 {num den s : Nat} (hden : 0 < den) (hs : s = (num / den).log2 - 52)
    (hpos : 0 < s) : 2 ^ 52 * (den * 2 ^ s) ≤ num := by
  have hne : num / den ≠ 0 := by
    intro hzero
    rw [hzero, Nat.log2_zero] at hs
    omega
  have hlog : (num / den).log2 = 52 + s := by omega
  have hle := (Nat.le_div_iff_mul_le hden).1 (Nat.log2_self_le hne)
  rw [hlog, Nat.pow_add, Nat.mul_assoc, Nat.mul_comm (2 ^ s)] at hle
  exact hle

/-- It never has more. -/
theorem lt_of_log2 {num den s : Nat} (hden : 0 < den) (hs : s = (num / den).log2 - 52) :
    num < 2 ^ 53 * (den * 2 ^ s) := by
  have hexponent : (num / den).log2 + 1 ≤ 53 + s := by omega
  have hlt : num / den < 2 ^ (53 + s) :=
    Nat.lt_of_lt_of_le Nat.lt_log2_self (Nat.pow_le_pow_right (by omega) hexponent)
  rw [Nat.div_lt_iff_lt_mul hden, Nat.pow_add, Nat.mul_assoc, Nat.mul_comm (2 ^ s)] at hlt
  exact hlt

/-- The exponent overflows exactly from half a unit below the next power of two on. -/
theorem scaled_lt_iff {num den : Nat} (hden : 0 < den) (top : Nat) :
    ((num / den).log2 - 52) * binade +
        roundHalfEven num (den * 2 ^ ((num / den).log2 - 52)) < (top + 3) * binade ↔
      num < (2 ^ 54 - 1) * (den * 2 ^ top) := by
  obtain ⟨s, hs⟩ : ∃ s, s = (num / den).log2 - 52 := ⟨_, rfl⟩
  have hunit : 0 < den * 2 ^ s := Nat.mul_pos hden (Nat.two_pow_pos s)
  have hhigh := lt_of_log2 hden hs
  rw [← hs, binade_eq]
  rcases Nat.lt_trichotomy s (top + 1) with h | h | h
  · -- in the lower binades even a carry stays below the bound
    have hround : roundHalfEven num (den * 2 ^ s) ≤ 2 ^ 53 :=
      Nat.le_trans (roundHalfEven_le _ _) ((Nat.div_lt_iff_lt_mul hunit).2 hhigh)
    have hmono : den * 2 ^ s ≤ den * 2 ^ top :=
      Nat.mul_le_mul_left den (Nat.pow_le_pow_right (by omega) (by omega))
    exact iff_of_true (by omega) (by omega)
  · -- in the last binade it is decided by rounding, where a tie goes up
    have hround := roundHalfEven_le_iff num hunit (show (2 ^ 53 - 1) % 2 = 1 by decide)
    have hdouble : den * 2 ^ s = 2 * (den * 2 ^ top) := by
      rw [h, Nat.pow_succ', Nat.mul_left_comm]
    rw [hdouble] at hround ⊢
    omega
  · -- beyond it the exponent alone is too large
    have hlow := le_of_log2 hden hs (by omega)
    have hround : 2 ^ 52 ≤ roundHalfEven num (den * 2 ^ s) :=
      Nat.le_trans ((Nat.le_div_iff_mul_le hunit).2 hlow) (le_roundHalfEven _ _)
    have hmono : den * 2 ^ (top + 2) ≤ den * 2 ^ s :=
      Nat.mul_le_mul_left den (Nat.pow_le_pow_right (by omega) (by omega))
    rw [Nat.pow_add, Nat.mul_comm (2 ^ top), Nat.mul_left_comm] at hmono
    exact iff_of_false (by omega) (by omega)

/-- The units of a decimal that are below this bound. -/
theorem units_lt_iff (n p j k : Nat) : n * 2 ^ k < (2 ^ 54 - 1) * (10 ^ p * 2 ^ (j + k)) ↔
    n < (2 ^ 54 - 1) * 2 ^ j * 10 ^ p := by
  have hbound : (2 ^ 54 - 1) * (10 ^ p * 2 ^ (j + k)) = (2 ^ 54 - 1) * 2 ^ j * 10 ^ p * 2 ^ k := by
    rw [Nat.pow_add]
    ring
  rw [hbound, Nat.mul_lt_mul_right (Nat.two_pow_pos k)]

/-- **A decimal is read as a finite double exactly if it is less than half a unit above the largest
one**, that is, below `2 ^ 1024 - 2 ^ 970`. -/
theorem nearest_lt_infinity_iff {d : Decimal} :
    nearest d < infinity ↔ d.digits < (2 ^ 54 - 1) * 2 ^ 970 * 10 ^ d.places := by
  have hden : 0 < 10 ^ d.places := Nat.pow_pos (by omega)
  have hinf : infinity = (970 + 1074 + 3) * binade := rfl
  unfold nearest
  rw [min_lt_iff, or_iff_left (Nat.lt_irrefl _), hinf]
  -- the power is not to be computed
  generalize 1074 = k
  simp only [Nat.pow_eq]
  exact (scaled_lt_iff hden (970 + k)).trans (units_lt_iff d.digits d.places 970 k)

end Binary64

/-! ### Literals -/

theorem Decimal.ofText_of_not_mem {literal : List Char} (h : '.' ∉ literal) :
    ofText literal = ⟨wholeOfText literal, 0⟩ := by
  have hne : ∀ c ∈ literal, (c != '.') = true := fun c hc =>
    bne_iff_ne.2 (ne_of_mem_of_not_mem hc h)
  simp [ofText, List.takeWhile_eq_self_iff.2 hne, List.dropWhile_eq_nil_iff.2 hne]

namespace Number

/-- A literal denotes the integer that its digits make, or the double nearest to its fraction. -/
theorem ofLiteral_cases (literal : List Char) :
    ('.' ∉ literal ∧
      ∃ n : Int64, ofLiteral literal = int n ∧ (Decimal.wholeOfText literal : Int) = n.toInt) ∨
    ofLiteral literal = float (Binary64.ofDecimal (Decimal.ofText literal)) := by
  rw [ofLiteral]
  split_ifs with hpoint
  · exact Or.inr rfl
  · cases hfit : fitted? (Decimal.wholeOfText literal) with
    | none => exact Or.inr rfl
    | some n => exact Or.inl ⟨hpoint, n, rfl, fitted?_eq_some_iff.1 hfit⟩

/-- No literal denotes a number with a minus sign. -/
theorem plain_ofLiteral {literal : List Char} (h : (ofLiteral literal).IsFinite) :
    (ofLiteral literal).Plain := by
  rcases ofLiteral_cases literal with ⟨-, n, hn, hwhole⟩ | hfloat
  · rw [hn]
    exact show 0 ≤ n.toInt by omega
  · rw [hfloat] at h ⊢
    exact ⟨h, Binary64.isNegative_ofDecimal _⟩

/-- What a literal denotes is finite, or it is infinity. -/
theorem text_ofLiteral_of_overflow {literal : List Char} (h : ¬ (ofLiteral literal).IsFinite) :
    (ofLiteral literal).text = "inf" := by
  rcases ofLiteral_cases literal with ⟨-, n, hn, -⟩ | hfloat
  · rw [hn] at h
    exact absurd trivial h
  · rw [hfloat] at h ⊢
    rw [text, chars, Binary64.chars_ofDecimal_of_overflow h]

/-- **A literal denotes a finite number exactly if its fraction is not too large for a double.** -/
theorem isFinite_ofLiteral_iff {literal : List Char} : (ofLiteral literal).IsFinite ↔
    (Decimal.ofText literal).digits <
      (2 ^ 54 - 1) * 2 ^ 970 * 10 ^ (Decimal.ofText literal).places := by
  rcases ofLiteral_cases literal with ⟨hpoint, n, hn, hwhole⟩ | hfloat
  · have hmax : n.toInt ≤ 2 ^ 63 - 1 := Int64.toInt_maxValue ▸ n.toInt_le
    have hpow (k : Nat) (hk : 63 ≤ k) : 2 ^ 63 ≤ 2 ^ k := Nat.pow_le_pow_right (by omega) hk
    have hlarge := hpow 970 (by omega)
    rw [hn, Decimal.ofText_of_not_mem hpoint, Nat.pow_zero, Nat.mul_one]
    refine iff_of_true trivial ?_
    dsimp only
    generalize 970 = k at hlarge
    omega
  · rw [hfloat, ← Binary64.nearest_lt_infinity_iff, ← Binary64.isFinite_ofDecimal_iff]
    rfl

end Number

/-- The text is cut into one literal for the number and the end mark. -/
def IsLiteralFor (source text : String) (v : Number) : Prop :=
  ∃ t mark, (tokenize source text).value = .ok #[t, mark] ∧ IsNumber t v ∧ mark.kind = .ending

theorem isLiteralFor_numeral {literal : List Char} {pointed : Bool}
    (h : IsNumeral literal pointed) (source : String) :
    IsLiteralFor source (String.ofList literal) (Number.ofLiteral literal) := by
  refine ⟨_, endMark literal, ?_, isNumber_numeral literal pointed Position.start, rfl⟩
  rw [tokenize_eq_ok_iff, String.toList_ofList]
  exact ⟨_, tiles_numeral h _, rfl⟩

/-- A text that is cut into one literal is a numeral with separators around it. -/
theorem IsLiteralFor.exists_numeral {source text : String} {v : Number}
    (h : IsLiteralFor source text v) :
    ∃ before literal pointed after, text.toList = before ++ literal ++ after ∧
      (∀ c ∈ before ++ after, isSeparator c = true) ∧ IsNumeral literal pointed ∧
      v = Number.ofLiteral literal := by
  obtain ⟨t, mark, hcut, ⟨hkind, hvalue⟩, -⟩ := h
  obtain ⟨ls, htiles, htokens⟩ := tokenize_eq_ok_iff.1 hcut
  obtain ⟨before, pieces, hp, rfl⟩ := htiles.exists_isTiling
  obtain ⟨l, after, rfl, rfl⟩ : ∃ l after, pieces = [(l, after)] ∧ t = l.token := by
    have hlist := congrArg Array.toList htokens
    match pieces with
    | [] => simp at hlist
    | [(l, after)] =>
        simp only [List.map_cons, List.map_nil, List.cons_append, List.nil_append, List.cons.injEq]
          at hlist
        exact ⟨l, after, rfl, hlist.1⟩
    | _ :: _ :: _ => simp at hlist
  have htext := hp.text_eq
  have hspelled := hp.spelled _ List.mem_cons_self
  obtain ⟨literal, token⟩ := l
  change Spells literal token at hspelled
  cases hspelled with
  | symbol h => cases hvalue
  | @numeral _ pointed _ h =>
      refine ⟨before, literal, pointed, after, by simpa [piecesText] using htext, ?_, h,
        (Option.some.inj hvalue).symm⟩
      intro c hc
      rcases List.mem_append.1 hc with hc | hc
      · exact hp.blank c hc
      · exact hp.blanks _ List.mem_cons_self c hc

/-- Infinity is not cut into tokens. -/
theorem tokenize_inf (source : String) :
    (tokenize source "inf").value = .error ⟨.illegal 'i', source, Position.start⟩ := by
  rw [value_tokenize]
  rfl

theorem not_isLiteralFor_inf (source : String) (v : Number) : ¬ IsLiteralFor source "inf" v := by
  rintro ⟨t, mark, hcut, -⟩
  rw [tokenize_inf] at hcut
  cases hcut

/-- **What is printed of a literal is a literal for the same number exactly if the number is
finite**, which it is if the fraction that the literal writes is not too large for a double.  What
is printed otherwise is not even cut into tokens. -/
theorem literal_rereads_iff {source text : String} {v : Number} (h : IsLiteralFor source text v) :
    (IsLiteralFor source v.text v ↔ v.IsFinite) ∧
    (¬ v.IsFinite → v.text = "inf" ∧
      (tokenize source v.text).value = .error ⟨.illegal 'i', source, Position.start⟩) ∧
    ∃ before literal pointed after, text.toList = before ++ literal ++ after ∧
      (∀ c ∈ before ++ after, isSeparator c = true) ∧ IsNumeral literal pointed ∧
      (v.IsFinite ↔ (Decimal.ofText literal).digits <
        (2 ^ 54 - 1) * 2 ^ 970 * 10 ^ (Decimal.ofText literal).places) := by
  obtain ⟨before, literal, pointed, after, htext, hblank, hnumeral, rfl⟩ := h.exists_numeral
  refine ⟨⟨fun hback => ?_, fun hfinite => ?_⟩, fun hlarge => ?_,
    before, literal, pointed, after, htext, hblank, hnumeral, Number.isFinite_ofLiteral_iff⟩
  · by_contra hlarge
    rw [Number.text_ofLiteral_of_overflow hlarge] at hback
    exact not_isLiteralFor_inf source _ hback
  · have hplain := Number.plain_ofLiteral hfinite
    have hback := isLiteralFor_numeral (Number.isNumeral_chars hplain) source
    rwa [Number.ofLiteral_chars hplain] at hback
  · have hinf := Number.text_ofLiteral_of_overflow hlarge
    exact ⟨hinf, by rw [hinf, tokenize_inf]⟩

/-- A literal that fits no machine integer is printed with a point, and is the same double then. -/
theorem literal_rereads_iff_oversize :
    IsLiteralFor "sums" " 99999999999999999999\n" (.float 100000000000000000000) ∧
    IsLiteralFor "sums" "100000000000000000000.0" (.float 100000000000000000000) := by
  have hliteral : IsLiteralFor "sums" " 99999999999999999999\n" (.float 100000000000000000000) :=
    ⟨⟨.integer, some (.float 100000000000000000000), ⟨1, 1, 1⟩⟩, ⟨.ending, none, ⟨22, 2, 0⟩⟩,
      by decide +kernel, ⟨Or.inl rfl, rfl⟩, rfl⟩
  have htext : (Number.float 100000000000000000000).text = "100000000000000000000.0" := by
    decide +kernel
  have hfinite : (Number.float 100000000000000000000).IsFinite :=
    show (100000000000000000000 : Float).isFinite = true by decide +kernel
  have hback := (literal_rereads_iff hliteral).1.2 hfinite
  rw [htext] at hback
  exact ⟨hliteral, hback⟩

/-- The first power of ten that is too large for a double is a literal, and what is printed of it
is none. -/
theorem literal_lost_above_range :
    ∃ v, IsLiteralFor "sums" (String.ofList ('1' :: List.replicate 309 '0')) v ∧
      v.text = "inf" ∧ ¬ IsLiteralFor "sums" v.text v := by
  have hdigits : IsNumeral ('1' :: List.replicate 309 '0') false := by
    refine .whole (List.cons_ne_nil _ _) fun c hc => ?_
    rcases List.mem_cons.1 hc with rfl | hc
    · decide
    · rw [(List.mem_replicate.1 hc).2]
      decide
  have hlarge : ¬ (Number.ofLiteral ('1' :: List.replicate 309 '0')).IsFinite := by
    have hpoint : '.' ∉ '1' :: List.replicate 309 '0' := fun hmem =>
      Bool.false_ne_true (hdigits.mem_point_iff.1 hmem)
    rw [Number.isFinite_ofLiteral_iff, Decimal.ofText_of_not_mem hpoint]
    decide +kernel
  have hinf := Number.text_ofLiteral_of_overflow hlarge
  refine ⟨_, isLiteralFor_numeral hdigits "sums", hinf, ?_⟩
  rw [hinf]
  exact not_isLiteralFor_inf "sums" _

end Reckoner
