/-
**Chains of signs fold.**

Any number of signs may stand before a numeral or before an expression in brackets, with separators
behind each of them.  Since such a text is one operand for whatever stands before it, its value is
what the signs make of it one after the other, the last one first, and every sign takes a level of
nesting.

A plus sign changes nothing, and two minus signs undo each other, with one exception: the opposite
of the least integer is no integer, and the double in its place does not become one again.  So all
that counts of a chain is whether the number of its minus signs is even, and for the least integer
whether there is one at all.

That a text is one operand is told by its brackets: no part of it at its beginning, except for the
whole, closes all brackets that it opens.

Main definitions:

* `Reckoner.Enclosed` — **the texts in one matching pair of brackets**;
* `Reckoner.Grammar.Unbroken` — the tokens of which no beginning closes all brackets that it opens;
* `Reckoner.Number.underSigns` — **a number under a chain of signs**;
* `Reckoner.signsText` — signs with separators behind each of them.

Main results:

* `Reckoner.Grammar.Derives.factor_of_unbroken` — unbroken tokens that make an expression are a
  single operand;
* `Reckoner.Number.foldr_apply` — what signs make of a number, one after the other;
* `Reckoner.calculate_signs` — **the value of a text behind a chain of signs**.
-/

import Reckoner.Proofs.WrittenNumbers
import Mathlib

set_option relaxedAutoImplicit false
set_option autoImplicit false

namespace Reckoner

/-! ### Brackets among tokens -/

namespace Grammar

/-- The number of brackets that tokens open. -/
def opened (ts : List Token) : Nat := ts.countP fun t => t.kind == .opening

/-- The number of brackets that tokens close. -/
def closed (ts : List Token) : Nat := ts.countP fun t => t.kind == .closing

/-- No beginning of the tokens closes all brackets that it opens, except for the whole. -/
def Unbroken (ts : List Token) : Prop :=
  ∀ ls t rs, ts = ls ++ t :: rs → ls ≠ [] → opened ls ≠ closed ls

@[simp] theorem opened_nil : opened [] = 0 := rfl

@[simp] theorem closed_nil : closed [] = 0 := rfl

@[simp] theorem opened_cons (t : Token) (ts : List Token) :
    opened (t :: ts) = opened ts + if t.kind = .opening then 1 else 0 := by
  simp [opened, List.countP_cons]

@[simp] theorem closed_cons (t : Token) (ts : List Token) :
    closed (t :: ts) = closed ts + if t.kind = .closing then 1 else 0 := by
  simp [closed, List.countP_cons]

@[simp] theorem opened_append (ts us : List Token) : opened (ts ++ us) = opened ts + opened us :=
  List.countP_append

@[simp] theorem closed_append (ts us : List Token) : closed (ts ++ us) = closed ts + closed us :=
  List.countP_append

/-- Signs, operations and literals are no brackets. -/
theorem ne_bracket_of_sign {k : Kind} {sign : Sign} (h : k.sign? = some sign) :
    k ≠ .opening ∧ k ≠ .closing := by
  constructor <;> rintro rfl <;> cases h

theorem ne_bracket_of_operation {k : Kind} {op : Operation} (h : k.operation? = some op) :
    k ≠ .opening ∧ k ≠ .closing := by
  constructor <;> rintro rfl <;> cases h

theorem ne_bracket_of_number {t : Token} {value : Number} (h : IsNumber t value) :
    t.kind ≠ .opening ∧ t.kind ≠ .closing := by
  rcases h.1 with hk | hk <;> rw [hk] <;> exact ⟨by decide, by decide⟩

/-- **A phrase closes all brackets that it opens.** -/
theorem Derives.opened_eq_closed {p : Phrase} {ts : List Token} {e : Expr} {d : Nat}
    (h : Derives p ts e d) : opened ts = closed ts := by
  induction h with
  | number h => simp [ne_bracket_of_number h]
  | signed h _ ih => simp [ne_bracket_of_sign h, ih]
  | bracketed hf hl _ ih => simp [hf, hl, ih]
  | single _ ih => exact ih
  | joined h _ _ ihl ihr => simp [ne_bracket_of_operation (Rank.operation?_of_joint h), ihl, ihr]

/-- No phrase is without tokens. -/
theorem Derives.ne_nil {p : Phrase} {ts : List Token} {e : Expr} {d : Nat}
    (h : Derives p ts e d) : ts ≠ [] := by
  rintro rfl
  cases h.after_due 0

/-- A chain of unbroken tokens has a single operand: the first of several would close all its
brackets. -/
theorem Derives.operand_of_unbroken {rank : Rank} {ts : List Token} {e : Expr} {d : Nat}
    (h : Derives (.chain rank) ts e d) (hts : Unbroken ts) : Derives rank.operand ts e d := by
  cases h with
  | single operand => exact operand
  | joined _ left _ => exact absurd left.opened_eq_closed (hts _ _ _ rfl left.ne_nil)

/-- **Unbroken tokens that make an expression are a single operand.** -/
theorem Derives.factor_of_unbroken {ts : List Token} {e : Expr} {d : Nat}
    (h : Derives (.chain .expression) ts e d) (hts : Unbroken ts) : Derives .factor ts e d := by
  have hterm : Derives (.chain .term) ts e d := h.operand_of_unbroken hts
  exact hterm.operand_of_unbroken hts

theorem unbroken_singleton (t : Token) : Unbroken [t] := by
  intro ls u rs h hne
  cases ls with
  | nil => exact absurd rfl hne
  | cons _ ls => simp at h

end Grammar

open Grammar

/-! ### Texts in brackets -/

/-- The text is enclosed in a matching pair of brackets: what stands between the two closes all
brackets that it opens, and never closes more than it has opened before. -/
def Enclosed (text : List Char) : Prop :=
  ∃ inner, text = '(' :: (inner ++ [')']) ∧ inner.count '(' = inner.count ')' ∧
    ∀ before, before <+: inner → before.count ')' ≤ before.count '('

theorem brackets_spelled {text : List Char} {t : Token} (h : Spells text t) :
    text.count '(' = opened [t] ∧ text.count ')' = closed [t] := by
  cases h with
  | @symbol c kind p hk =>
      simp only [Kind.ofSymbol?] at hk
      split at hk <;> cases hk <;> exact ⟨rfl, rfl⟩
  | @numeral _ pointed p hn =>
      have hkind := isNumber_literal pointed (Number.ofLiteral text) p
      have hopening := List.count_eq_zero_of_not_mem (hn.not_mem (c := '(') rfl (by decide))
      have hclosing := List.count_eq_zero_of_not_mem (hn.not_mem (c := ')') rfl (by decide))
      rw [hopening, hclosing]
      simp [ne_bracket_of_number hkind]

/-- The brackets of some tokens at the beginning of a text are those of a part of it. -/
theorem Tiles.exists_prefix {p : Position} {text : List Char} {ls ks : List Lexeme}
    (h : Tiles p text ls) (hks : ks <+: ls) : ∃ before, before <+: text ∧
      before.count '(' = opened (ks.map Lexeme.token) ∧
      before.count ')' = closed (ks.map Lexeme.token) := by
  induction h generalizing ks with
  | done =>
      rw [List.prefix_nil.1 hks]
      exact ⟨[], List.nil_prefix, rfl, rfl⟩
  | @separator p c rest ls hc _ ih =>
      obtain ⟨before, hbefore, hopened, hclosed⟩ := ih hks
      have hopening : c ≠ '(' := by rintro rfl; cases hc
      have hclosing : c ≠ ')' := by rintro rfl; cases hc
      refine ⟨c :: before, List.cons_prefix_cons.2 ⟨rfl, hbefore⟩, ?_, ?_⟩
      · rw [List.count_cons_of_ne hopening, hopened]
      · rw [List.count_cons_of_ne hclosing, hclosed]
  | @lexeme p l rest ls _ spelled _ _ ih =>
      rcases List.prefix_cons_iff.1 hks with rfl | ⟨ms, rfl, hms⟩
      · exact ⟨[], List.nil_prefix, rfl, rfl⟩
      · obtain ⟨before, hbefore, hopened, hclosed⟩ := ih hms
        obtain ⟨hopening, hclosing⟩ := brackets_spelled spelled
        refine ⟨l.text ++ before, List.prefix_append_right_inj _ |>.2 hbefore, ?_, ?_⟩
        · simp [hopening, hopened, Nat.add_comm]
        · simp [hclosing, hclosed, Nat.add_comm]

theorem brackets_unplaced (ls : List Lexeme) :
    opened (ls.map fun l => l.token.unplaced) = opened (ls.map Lexeme.token) ∧
      closed (ls.map fun l => l.token.unplaced) = closed (ls.map Lexeme.token) := by
  simp only [opened, closed, List.countP_map]
  exact ⟨rfl, rfl⟩

/-- Tokens between brackets are unbroken with these, if they never close more brackets than they
have opened. -/
theorem unbroken_inBrackets {us : List Token} (h : ∀ ks, ks <+: us → closed ks ≤ opened ks) :
    Unbroken (inBrackets us) := by
  intro ls t rs hts hne
  cases ls with
  | nil => exact absurd rfl hne
  | cons first ks =>
      rw [inBrackets, List.cons_append, List.cons.injEq] at hts
      obtain ⟨rfl, hts⟩ := hts
      -- the beginning ends before the last bracket, and the first one is still open
      have hks : ks <+: us := by
        rcases List.prefix_concat_iff.1 (⟨t :: rs, hts.symm⟩ : ks <+: us ++ [_]) with rfl | hks
        · simp at hts
        · exact hks
      have hle := h ks hks
      simp only [opened_cons, closed_cons, if_true, reduceCtorEq, if_false]
      omega

/-- **The tokens of a text in a matching pair of brackets are unbroken.** -/
theorem Enclosed.unbroken {text : List Char} {ts : List Token} (h : Enclosed text)
    (hcut : cut? text = some ts) : Unbroken ts := by
  obtain ⟨inner, rfl, -, hprefix⟩ := h
  cases hinner : cut? inner with
  | none =>
      have hopening : Kind.ofSymbol? '(' = some .opening := rfl
      have hclosing : Kind.ofSymbol? ')' = some .closing := rfl
      rw [cut?_cons_symbol hopening, cut?_append_symbol hclosing, hinner] at hcut
      cases hcut
  | some us =>
      have hnil : cut? [] = some [] := rfl
      rw [cut?_brackets hinner, hnil, Option.map_some, List.append_nil, Option.some.injEq] at hcut
      subst hcut
      refine unbroken_inBrackets fun ks hks => ?_
      obtain ⟨lexemes, htiles, rfl⟩ := exists_tiles_of_cut? hinner
      obtain ⟨ls, hls, rfl⟩ := List.prefix_map_iff.1 hks
      obtain ⟨before, hbefore, hopened, hclosed⟩ := htiles.exists_prefix hls
      rw [(brackets_unplaced ls).1, (brackets_unplaced ls).2, ← hopened, ← hclosed]
      exact hprefix before hbefore

/-! ### Numbers under signs -/

namespace Number

/-- **A number under a chain of signs**, which are told by the number of minus signs among them. -/
def underSigns (v : Number) (minuses : Nat) : Number :=
  if v = int Int64.minValue ∧ 0 < minuses then
    float (if Even minuses then -9223372036854775808 else 9223372036854775808)
  else if Even minuses then v
  else Sign.minus.apply v

/-- Two minus signs undo each other, except before the least integer. -/
theorem minus_minus {v : Number} (h : v ≠ int Int64.minValue) :
    Sign.minus.apply (Sign.minus.apply v) = v := by
  cases v with
  | float x => exact congrArg float (Binary64.neg_neg x)
  | int a =>
      have hne : a ≠ Int64.minValue := fun heq => h (congrArg int heq)
      obtain ⟨b, hb⟩ := (isMachineInteger_neg hne).exists_toInt
      have hminus : Sign.minus.apply (int a) = int b := Sign.apply_eq_int_iff.2 ⟨a, rfl, hb⟩
      rw [hminus]
      exact Sign.apply_eq_int_iff.2 ⟨b, rfl, by rw [Sign.exact, ← hb, Int.neg_neg]⟩

theorem minus_minValue :
    Sign.minus.apply (int Int64.minValue) = float 9223372036854775808 := by
  decide +kernel

/-- One more minus sign. -/
theorem minus_underSigns (v : Number) (minuses : Nat) :
    Sign.minus.apply (v.underSigns minuses) = v.underSigns (minuses + 1) := by
  by_cases hmin : v = int Int64.minValue
  · subst hmin
    simp only [underSigns, true_and, Nat.succ_pos, if_true, Nat.even_add_one]
    rcases Nat.eq_zero_or_pos minuses with rfl | hpos
    · exact minus_minValue
    · rw [if_pos hpos]
      by_cases heven : Even minuses
      · rw [if_pos heven, if_neg (not_not_intro heven)]
        exact congrArg float (Binary64.neg_neg _)
      · rw [if_neg heven, if_pos heven]
        rfl
  · simp only [underSigns, hmin, false_and, if_false, Nat.even_add_one]
    by_cases heven : Even minuses
    · rw [if_pos heven, if_neg (not_not_intro heven)]
    · rw [if_neg heven, if_pos heven, minus_minus hmin]

/-- **What signs make of a number one after the other**, the last one first. -/
theorem foldr_apply (signs : List Sign) (v : Number) :
    signs.foldr Sign.apply v = v.underSigns (signs.count .minus) := by
  induction signs with
  | nil => simp [underSigns]
  | cons sign signs ih =>
      rw [List.foldr_cons, ih]
      cases sign with
      | plus => rw [List.count_cons_of_ne (by decide)]; rfl
      | minus => rw [List.count_cons_self, minus_underSigns]

end Number

/-! ### Texts behind signs -/

/-- Signs as they are written, with a text behind each of them. -/
def signsText (signs : List (Sign × List Char)) : List Char :=
  signs.flatMap fun sign => sign.1.symbol :: sign.2

/-- A sign with separators behind it is one more token. -/
theorem cut?_sign {sign : Sign} {kind : Kind} {gap : List Char}
    (hsymbol : Kind.ofSymbol? sign.symbol = some kind)
    (hgap : ∀ c ∈ gap, isSeparator c = true) (rest : List Char) :
    cut? (sign.symbol :: (gap ++ rest)) =
      (cut? rest).map fun ts => ⟨kind, none, Position.start⟩ :: ts := by
  have hseam : Seam gap rest := by
    have hnil : Seam [] rest := fun n hn => by cases hn
    exact hnil.append_separators hgap
  rw [cut?_cons_symbol hsymbol, cut?_append hseam, cut?_separators hgap]
  cases cut? rest <;> rfl

/-- **Signs before an operand make an operand.** -/
theorem derives_signs {text : List Char} {ts : List Token} {e : Expr} {d : Nat}
    (hcut : cut? text = some ts) (he : Derives .factor ts e d)
    (signs : List (Sign × List Char))
    (hgaps : ∀ sign ∈ signs, ∀ c ∈ sign.2, isSeparator c = true) :
    ∃ us e', cut? (signsText signs ++ text) = some us ∧
      Derives .factor us e' (d + signs.length) ∧
      e'.result = (signs.map Prod.fst).foldr Sign.apply e.result := by
  induction signs with
  | nil => exact ⟨ts, e, hcut, he, rfl⟩
  | cons first signs ih =>
      obtain ⟨us, e', hus, he', hresult⟩ := ih fun sign hmem =>
        hgaps sign (List.mem_cons_of_mem _ hmem)
      obtain ⟨sign, gap⟩ := first
      obtain ⟨kind, hsymbol, hsign⟩ := sign.exists_kind
      have hgap : ∀ c ∈ gap, isSeparator c = true := hgaps (sign, gap) List.mem_cons_self
      refine ⟨⟨kind, none, .start⟩ :: us, _, ?_, .signed hsign he', ?_⟩
      · rw [signsText, List.flatMap_cons, List.append_assoc, List.cons_append, ← signsText,
          cut?_sign hsymbol hgap, hus, Option.map_some]
      · rw [List.map_cons, List.foldr_cons, ← hresult]
        rfl

/-- The tokens of a numeral or of a text in brackets are an operand if they are an expression. -/
theorem derives_factor {text : List Char} {ts : List Token} {e : Expr} {d : Nat}
    (htext : (∃ pointed, IsNumeral text pointed) ∨ Enclosed text) (hcut : cut? text = some ts)
    (he : Derives (.chain .expression) ts e d) : Derives .factor ts e d := by
  refine he.factor_of_unbroken ?_
  rcases htext with ⟨pointed, hn⟩ | htext
  · rw [cut?_numeral hn, Option.some.injEq] at hcut
    rw [← hcut]
    exact unbroken_singleton _
  · exact htext.unbroken hcut

/-- **Chains of signs fold.**  The text is a numeral or an expression in one matching pair of
brackets, and has the value `v`.  With signs in front of it, and separators behind each of them, it
has the value `v` again if the number of minus signs is even, and the opposite of that if it is odd,
except that the least integer becomes a double under the first minus sign.  Every sign takes one
more level of nesting. -/
theorem calculate_signs {settings : Settings} {text : List Char} {v : Number}
    (htext : (∃ pointed, IsNumeral text pointed) ∨ Enclosed text)
    (hvalue : (calculate settings (String.ofList text)).value = .ok v)
    (signs : List (Sign × List Char))
    (hgaps : ∀ sign ∈ signs, ∀ c ∈ sign.2, isSeparator c = true) :
    (calculate { settings with maxDepth := settings.maxDepth + signs.length }
      (String.ofList (signsText signs ++ text))).value =
        .ok (v.underSigns ((signs.map Prod.fst).count .minus)) := by
  obtain ⟨ts, e, d, hcut, he, hd, rfl⟩ := calculate_eq_ok_iff.1 hvalue
  rw [String.toList_ofList] at hcut
  have hfactor := derives_factor htext hcut he
  obtain ⟨us, e', hus, he', hresult⟩ := derives_signs hcut hfactor signs hgaps
  refine calculate_eq_ok_iff.2 ⟨us, e', _, ?_, .single (.single he'), Nat.add_le_add_right hd _, ?_⟩
  · rw [String.toList_ofList, hus]
  · rw [hresult, Number.foldr_apply]

/-- The least integer under three signs, two of them minus signs: it becomes a double under the last
of these, and stays one. -/
theorem calculate_signs_minValue :
    (calculate { maxDepth := 2 } (String.ofList "(-9223372036854775807-1)".toList)).value =
      .ok (.int Int64.minValue) ∧
    (calculate { maxDepth := 5 } "- +\n\t-(-9223372036854775807-1)").value =
      .ok (.float (-9223372036854775808)) := by
  have hvalue : (calculate { maxDepth := 2 }
      (String.ofList "(-9223372036854775807-1)".toList)).value = .ok (.int Int64.minValue) := by
    decide +kernel
  have henclosed : Enclosed "(-9223372036854775807-1)".toList := by
    refine ⟨"-9223372036854775807-1".toList, by decide, by decide, fun before hbefore => ?_⟩
    calc before.count ')' ≤ "-9223372036854775807-1".toList.count ')' := hbefore.sublist.count_le _
      _ = 0 := by decide
      _ ≤ before.count '(' := Nat.zero_le _
  have hgaps : ∀ sign ∈ [(Sign.minus, [' ']), (.plus, ['\n', '\t']), (.minus, [])],
      ∀ c ∈ sign.2, isSeparator c = true := by
    simp [isSeparator]
  have hchain := calculate_signs (Or.inr henclosed) hvalue _ hgaps
  have htext : String.ofList (signsText [(.minus, [' ']), (.plus, ['\n', '\t']), (.minus, [])] ++
      "(-9223372036854775807-1)".toList) = "- +\n\t-(-9223372036854775807-1)" := by
    decide
  have hsigns : (Number.int Int64.minValue).underSigns 2 = .float (-9223372036854775808) := by
    decide +kernel
  rw [htext] at hchain
  exact ⟨hvalue, hchain.trans (congrArg Except.ok hsigns)⟩

end Reckoner
