/-
**Calculations compose.**

A text has a value if its tokens make an expression within the limit on nesting, and then its value
is that of the expression.  Since the tokens of a text do not depend on the text around it, as long
as brackets part the two, and what is read in brackets does not depend on where they stand, the
values of texts can be worked with as values of operands are: put in brackets and joined by an
operation, two texts have the value that the operation gives on the values of the two.  The brackets
take one more level of nesting.

Main results:

* `Reckoner.calculate_eq_ok_iff` — **when a text has a value**, told by its tokens;
* `Reckoner.calculate_joined` — **the value of two texts in brackets, joined by an operation**.
-/

import Reckoner.Calculation
import Reckoner.Proofs.Concatenation

set_option relaxedAutoImplicit false
set_option autoImplicit false

namespace Reckoner

open Grammar

/-! ### When a text has a value -/

theorem Expr.result_of_unplaced {e e' : Expr} (h : e'.unplaced = e.unplaced) :
    e'.result = e.result := by
  rw [← value_evaluate, ← value_evaluate, evaluate_of_unplaced h]

section Tokens

variable {tokens : Array Token} {ts : List Token} {source : String} {limit : Nat} {e : Expr}

/-- With an end mark behind them, tokens are read as the expression that they derive. -/
theorem Expr.ofTokens_marked_eq_ok_iff (hts : ∀ t ∈ ts, t.kind ≠ .ending) :
    (ofTokens source limit (ts ++ [endMark []]).toArray).value = .ok e ↔
      ∃ d ≤ limit, Derives (.chain .expression) ts e d := by
  have hend : ∃ t ∈ (ts ++ [endMark []]).toArray.toList, t.kind = .ending :=
    ⟨endMark [], by simp, rfl⟩
  have hbefore : beforeEnd (ts ++ [endMark []]).toArray.toList = ts :=
    beforeEnd_append_cons hts rfl
  rw [ofTokens_eq_ok_iff_derives, hbefore]
  exact and_iff_right hend

/-- The same holds of the tokens of a text, which have places. -/
theorem Expr.exists_ofTokens_eq_ok_iff (hts : ∀ t ∈ ts, t.kind ≠ .ending)
    (h : tokens.map Token.unplaced = (ts ++ [endMark []]).toArray) {value : Number} :
    (∃ e, (ofTokens source limit tokens).value = .ok e ∧ e.result = value) ↔
      ∃ e, (∃ d ≤ limit, Derives (.chain .expression) ts e d) ∧ e.result = value := by
  have hmarked : (ts ++ [endMark []]).toArray.map Token.unplaced = tokens.map Token.unplaced := by
    rw [← h, Array.map_map]
    rfl
  constructor
  · rintro ⟨e, he, rfl⟩
    obtain ⟨e', he', hsame⟩ := ofTokens_ok_alike hmarked he
    exact ⟨e', (ofTokens_marked_eq_ok_iff hts).1 he', result_of_unplaced hsame⟩
  · rintro ⟨e, he, rfl⟩
    have hread : (ofTokens source limit (ts ++ [endMark []]).toArray).value = .ok e :=
      (ofTokens_marked_eq_ok_iff hts).2 he
    obtain ⟨e', he', hsame⟩ := ofTokens_ok_alike hmarked.symm hread
    exact ⟨e', he', result_of_unplaced hsame⟩

end Tokens

/-- **A text has a value exactly if its tokens derive an expression within the limit**, and then it
is the value of that expression. -/
theorem calculate_eq_ok_iff {settings : Settings} {text : String} {value : Number} :
    (calculate settings text).value = .ok value ↔ ∃ ts e d, cut? text.toList = some ts ∧
      Derives (.chain .expression) ts e d ∧ d ≤ settings.maxDepth ∧ e.result = value := by
  have hread {tokens : Array Token}
      (hcut : (tokenize settings.source text).value = .ok tokens) :
      (calculate settings text).value = .ok value ↔ ∃ e,
        (Expr.ofTokens settings.source settings.maxDepth tokens).value = .ok e ∧
          e.result = value := by
    rw [value_calculate, readTree_of_tokenize hcut]
    cases (Expr.ofTokens settings.source settings.maxDepth tokens).value <;>
      simp [Except.map, Expr.value_evaluate]
  constructor
  · intro h
    cases hcut : (tokenize settings.source text).value with
    | error fault =>
        rw [calculate_of_tokenize_error hcut] at h
        cases h
    | ok tokens =>
        obtain ⟨ts, hts, htokens⟩ := cut?_of_tokenize hcut
        obtain ⟨e, ⟨d, hd, he⟩, hvalue⟩ :=
          (Expr.exists_ofTokens_eq_ok_iff (kind_ne_ending_of_cut? hts) htokens).1 ((hread hcut).1 h)
        exact ⟨ts, e, d, hts, he, hd, hvalue⟩
  · rintro ⟨ts, e, d, hts, he, hd, hvalue⟩
    obtain ⟨tokens, hcut, htokens⟩ := exists_tokens_of_cut? hts settings.source
    exact (hread hcut).2 ((Expr.exists_ofTokens_eq_ok_iff (kind_ne_ending_of_cut? hts) htokens).2
      ⟨e, ⟨d, hd, he⟩, hvalue⟩)

/-! ### Texts in brackets -/

/-- The tokens of a pair of brackets, with these tokens between them. -/
def inBrackets (ts : List Token) : List Token :=
  ⟨.opening, none, Position.start⟩ :: (ts ++ [⟨.closing, none, Position.start⟩])

theorem cut?_brackets {text : List Char} {ts : List Token} (h : cut? text = some ts)
    (rest : List Char) :
    cut? ('(' :: (text ++ ')' :: rest)) = (cut? rest).map fun us => inBrackets ts ++ us := by
  have hopening : Kind.ofSymbol? '(' = some .opening := rfl
  have hclosing : Kind.ofSymbol? ')' = some .closing := rfl
  rw [cut?_cons_symbol hopening, cut?_append_symbol hclosing, h]
  cases cut? rest <;> simp [inBrackets]

theorem derives_inBrackets {ts : List Token} {e : Expr} {d : Nat}
    (h : Derives (.chain .expression) ts e d) : Derives .factor (inBrackets ts) e (d + 1) :=
  .bracketed rfl rfl h

/-- **Two texts in brackets, joined by an operation, have the value that the operation gives on
their values**, at one more level of nesting. -/
theorem calculate_joined (settings : Settings) (op : Operation) (s t : String) (a b : Number)
    (hs : (calculate settings s).value = .ok a) (ht : (calculate settings t).value = .ok b) :
    (calculate { settings with maxDepth := settings.maxDepth + 1 }
      ("(" ++ s ++ ")" ++ op.symbol.toString ++ "(" ++ t ++ ")")).value = .ok (op.apply a b) := by
  obtain ⟨ls, l, d, hls, hl, hd, rfl⟩ := calculate_eq_ok_iff.1 hs
  obtain ⟨rs, r, d', hrs, hr, hd', rfl⟩ := calculate_eq_ok_iff.1 ht
  obtain ⟨kind, hsymbol, hop⟩ := op.exists_kind
  have hcut : cut? ('(' :: (s.toList ++ ')' :: op.symbol :: '(' :: (t.toList ++ [')']))) =
      some (inBrackets ls ++ ⟨kind, none, Position.start⟩ :: inBrackets rs) := by
    have hnil : cut? [] = some [] := rfl
    rw [cut?_brackets hls, cut?_cons_symbol hsymbol, cut?_brackets hrs, hnil]
    simp
  have hderives := Derives.joined_factors (t := ⟨kind, none, Position.start⟩) hop
    (derives_inBrackets hl) (derives_inBrackets hr)
  refine calculate_eq_ok_iff.2 ⟨_, _, _, ?_, hderives, ?_, rfl⟩
  · simpa using hcut
  · simp only [Nat.max_le]
    omega

/-- The first text ends with a numeral that ends with its point, and with a line feed; the second
one takes a level of nesting itself. -/
theorem calculate_joined_quotient :
    (calculate { maxDepth := 1 } "7.\n").value = .ok (.float 7) ∧
    (calculate { maxDepth := 1 } "-2").value = .ok (.int (-2)) ∧
    (calculate { maxDepth := 2 } "(7.\n)/(-2)").value = .ok (.float (-3.5)) := by
  have hs : (calculate { maxDepth := 1 } "7.\n").value = .ok (.float 7) := by decide +kernel
  have ht : (calculate { maxDepth := 1 } "-2").value = .ok (.int (-2)) := by decide +kernel
  have hquotient : Operation.div.apply (.float 7) (.int (-2)) = .float (-3.5) := by decide +kernel
  have htext : "(" ++ "7.\n" ++ ")" ++ Operation.div.symbol.toString ++ "(" ++ "-2" ++ ")" =
      "(7.\n)/(-2)" := by
    decide
  have hjoined := calculate_joined { maxDepth := 1 } .div "7.\n" "-2" _ _ hs ht
  rw [htext, hquotient] at hjoined
  exact ⟨hs, ht, hjoined⟩

end Reckoner
