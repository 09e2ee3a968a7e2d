/-
**Expressions are read back as they were written.**

The written form of a tree has a pair of brackets around every operation and every sign, so it
says by itself which operand belongs to which operation.  If the numbers of the tree have no sign
of their own, its text is cut into tokens, and these are read as the same tree with other places.
The brackets count: reading needs one level of nesting for every operation on the way to a literal
and two for every sign, one for its bracket and one for itself, and with less it finds the text to
be nested too deeply.  Places do not matter to evaluation, so a tree and its text have one value.

The written form collects the brackets of a chain of operations in front of its first operand.  It
is first shown to be the plain nested one, which then follows the tree.

Main definitions:

* `Reckoner.Expr.Plain` — the trees whose numbers are written without a sign and in digits;
* `Reckoner.Expr.need` — the nesting that the written form of a tree comes to;
* `Reckoner.Expr.written` — the written form, nested as the tree is;
* `Reckoner.Renders` — the texts that are cut into tokens of a phrase wherever they stand.

Main results:

* `Reckoner.Expr.write_eq` — the written form is the nested one;
* `Reckoner.Expr.renders_written` — **it is cut into tokens that derive the tree**, at the depth
  that it needs;
* `Reckoner.Expr.text_reads_back` — **the text of a tree is read back as the tree, given the
  nesting it needs and not otherwise, and has the value of every text of that tree**.
-/

import Reckoner.Calculation
import Reckoner.Proofs.Literals
import Reckoner.Proofs.Places

set_option relaxedAutoImplicit false
set_option autoImplicit false

namespace Reckoner

open Grammar

/-! ### Trees and their written form -/

namespace Expr

/-- All numbers of the tree are written without a sign and in digits. -/
def Plain : Expr → Prop
  | literal value _ => value.Plain
  | signed _ operand _ => operand.Plain
  | joined _ left right _ => left.Plain ∧ right.Plain

/-- The most signs and brackets that are open at once in the written form. -/
def need : Expr → Nat
  | literal _ _ => 0
  | signed _ operand _ => operand.need + 2
  | joined _ left right _ => max left.need right.need + 1

/-- The written form, nested as the tree is. -/
def written : Expr → List Char
  | literal value _ => value.chars
  | signed sign operand _ => '(' :: (sign.symbol :: operand.written ++ [')'])
  | joined op left right _ =>
      '(' :: (left.written ++ ' ' :: op.symbol :: ' ' :: right.written ++ [')'])

/-- The brackets counted on the way down a chain are those of its operations. -/
theorem write_eq (e : Expr) : ∀ (opened : Nat) (after : List Char),
    e.write opened after = List.replicate opened '(' ++ e.written ++ after := by
  induction e with
  | literal value p =>
      intro opened after
      rfl
  | signed sign operand p ih =>
      intro opened after
      simp [write, written, ih, List.replicate_succ']
  | joined op left right p ihl ihr =>
      intro opened after
      simp [write, written, ihl, ihr, List.replicate_succ']

theorem chars_eq_written (e : Expr) : e.chars = e.written := by
  rw [chars, write_eq, List.replicate_zero, List.nil_append, List.append_nil]

end Expr

/-! ### Texts of phrases -/

/-- The lexeme that a character makes by itself. -/
def Lexeme.symbol (c : Char) (kind : Kind) (p : Position) : Lexeme := ⟨[c], ⟨kind, none, p⟩⟩

theorem Tiles.symbol {p : Position} {c : Char} {kind : Kind} {rest : List Char} {ls : List Lexeme}
    (h : Kind.ofSymbol? c = some kind) (more : Tiles (p.advance c) rest ls) :
    Tiles p (c :: rest) (.symbol c kind p :: ls) :=
  .lexeme (l := .symbol c kind p) rfl (.symbol h) (by simp [Lexeme.symbol]) more

theorem Tiles.space {p : Position} {rest : List Char} {ls : List Lexeme}
    (more : Tiles (p.advance ' ') rest ls) : Tiles p (' ' :: rest) ls :=
  .separator (by decide) more

/-- Wherever the text stands, unless a numeral at its end could go on behind it, it is cut into
tokens that derive the tree as a phrase of this depth. -/
def Renders (phrase : Phrase) (text : List Char) (e : Expr) (depth : Nat) : Prop :=
  ∀ p rest ls, EndsNumeral rest → Tiles (p.advanceOver text) rest ls →
    ∃ ms e', Tiles p (text ++ rest) (ms ++ ls) ∧
      Derives phrase (ms.map Lexeme.token) e' depth ∧ e'.unplaced = e.unplaced

namespace Renders

variable {text left right : List Char} {e l r : Expr} {d d' : Nat} {place : Position}

theorem literal {v : Number} (h : v.Plain) : Renders .factor v.chars (.literal v place) 0 := by
  intro p rest ls hends more
  obtain ⟨t, ht, hspells⟩ : ∃ t, IsNumber t v ∧ t.position = p ∧ Spells v.chars t := by
    have hspells := Spells.numeral (p := p) (Number.isNumeral_chars h)
    rw [Number.ofLiteral_chars h] at hspells
    exact ⟨_, isNumber_literal v.isFloat v p, rfl, hspells⟩
  exact ⟨[⟨v.chars, t⟩], .literal v t.position,
    .lexeme (l := ⟨v.chars, t⟩) hspells.1 hspells.2 (fun _ => hends) more, .number ht, rfl⟩

theorem signed (sign : Sign) (h : Renders .factor text e d) :
    Renders .factor (sign.symbol :: text) (.signed sign e place) (d + 1) := by
  intro p rest ls hends more
  obtain ⟨kind, hsymbol, hsign⟩ := sign.exists_kind
  obtain ⟨ms, e', ht, hd, he⟩ := h _ rest ls hends more
  exact ⟨_ :: ms, .signed sign e' p, .symbol hsymbol ht, .signed hsign hd,
    by simp only [Expr.unplaced, he]⟩

theorem expression (h : Renders .factor text e d) : Renders (.chain .expression) text e d := by
  intro p rest ls hends more
  obtain ⟨ms, e', ht, hd, he⟩ := h p rest ls hends more
  have hterm : Derives (.chain .term) (ms.map Lexeme.token) e' d := .single hd
  exact ⟨ms, e', ht, .single hterm, he⟩

theorem bracketed (h : Renders (.chain .expression) text e d) :
    Renders .factor ('(' :: text ++ [')']) e (d + 1) := by
  intro p rest ls hends more
  rw [Position.advanceOver_append] at more
  have hopening : Kind.ofSymbol? '(' = some .opening := rfl
  have hclosing : Kind.ofSymbol? ')' = some .closing := rfl
  have hends' : EndsNumeral (')' :: rest) := endsNumeral_cons (by decide) (by decide) rest
  obtain ⟨ms, e', ht, hd, he⟩ := h _ _ _ hends' (.symbol hclosing more)
  refine ⟨.symbol '(' .opening p :: (ms ++ [.symbol ')' .closing (p.advanceOver ('(' :: text))]),
    e', ?_, ?_, he⟩
  · simpa using Tiles.symbol hopening ht
  · simpa using Derives.bracketed rfl rfl hd

theorem joined (op : Operation) (hl : Renders .factor left l d) (hr : Renders .factor right r d') :
    Renders (.chain .expression) (left ++ ' ' :: op.symbol :: ' ' :: right)
      (.joined op l r place) (max d d') := by
  intro p rest ls hends more
  obtain ⟨kind, hsymbol, hop⟩ := op.exists_kind
  rw [Position.advanceOver_append] at more
  -- a tiling is made from its end, so the right operand comes first
  obtain ⟨rs, r', htr, hdr, her⟩ := hr _ rest ls hends more
  have hspace := endsNumeral_cons (c := ' ') (by decide) (by decide)
  obtain ⟨ms, l', htl, hdl, hel⟩ := hl p _ _ (hspace _) (.space (.symbol hsymbol (.space htr)))
  refine ⟨ms ++ .symbol op.symbol kind ((p.advanceOver left).advance ' ') :: rs,
    .joined op l' r' ((p.advanceOver left).advance ' '), ?_, ?_, ?_⟩
  · simpa using htl
  · rw [List.map_append, List.map_cons]
    exact .joined_factors hop hdl hdr
  · simp only [Expr.unplaced, hel, her]

end Renders

namespace Expr

/-- **The written form of a tree is cut into tokens that derive the tree**, at the depth that it
needs. -/
theorem renders_written {e : Expr} (h : e.Plain) : Renders .factor e.written e e.need := by
  induction e with
  | literal value p => exact .literal h
  | signed sign operand p ih => exact .bracketed (.expression (.signed sign (ih h)))
  | joined op left right p ihl ihr => exact .bracketed (.joined op (ihl h.1) (ihr h.2))

/-- The text of a tree is cut into tokens of which those before the end mark derive the tree. -/
theorem tokenize_text {e : Expr} (h : e.Plain) (source : String) :
    ∃ tokens e', (tokenize source e.text).value = .ok tokens ∧
      (∃ t ∈ tokens.toList, t.kind = .ending) ∧
      Derives (.chain .expression) (beforeEnd tokens.toList) e' e.need ∧
      e'.unplaced = e.unplaced := by
  have hends : EndsNumeral [] := by simp [EndsNumeral]
  obtain ⟨ms, e', ht, hd, he⟩ := (renders_written h).expression Position.start [] [] hends .done
  rw [List.append_nil, List.append_nil] at ht
  have hcut : (tokenize source e.text).value =
      .ok (ms.map Lexeme.token ++ [endMark e.written]).toArray := by
    rw [tokenize_eq_ok_iff, text, String.toList_ofList, chars_eq_written]
    exact ⟨ms, ht, rfl⟩
  refine ⟨_, e', hcut, exists_ending_of_tokenize hcut, ?_, he⟩
  rwa [beforeEnd_append_cons hd.kind_ne_ending rfl]

end Expr

/-- **A tree is read back from its text, given the nesting it needs and not otherwise, and has the
value of every text of that tree.** -/
theorem Expr.text_reads_back (e : Expr) (h : e.Plain) :
    (∀ source, ∃ tokens, (tokenize source e.text).value = .ok tokens ∧ ∀ limit,
      ((∃ e', (ofTokens source limit tokens).value = .ok e' ∧ e'.unplaced = e.unplaced) ↔
        e.need ≤ limit) ∧
      (limit < e.need → ∃ p, (ofTokens source limit tokens).value =
        .error ⟨.ungrammatical (.tooDeep limit), source, p⟩)) ∧
    ∀ (settings other : Settings) (text : String), (readTree settings text).value = .ok e →
      e.need ≤ other.maxDepth →
      (calculate other e.text).value = (calculate settings text).value := by
  constructor
  · intro source
    obtain ⟨tokens, e', hcut, hend, hd, he⟩ := tokenize_text h source
    have hdeep {limit : Nat} (hlimit : limit < e.need) : ∃ p,
        (ofTokens source limit tokens).value =
          .error ⟨.ungrammatical (.tooDeep limit), source, p⟩ := by
      obtain ⟨stop, hw⟩ := whole_tooDeep_of_derives hend hd hlimit
      exact ⟨_, ofTokens_eq_error_iff.2 ⟨_, stop, hw, rfl⟩⟩
    refine ⟨tokens, hcut, fun limit => ⟨⟨?_, ?_⟩, hdeep⟩⟩
    · rintro ⟨e'', hread, -⟩
      by_contra hlimit
      obtain ⟨p, hp⟩ := hdeep (Nat.lt_of_not_le hlimit)
      rw [hp] at hread
      cases hread
    · intro hlimit
      exact ⟨e', ofTokens_eq_ok_iff_derives.2 ⟨hend, _, hlimit, hd⟩, he⟩
  · intro settings other text hread hlimit
    obtain ⟨tokens, e', hcut, hend, hd, he⟩ := tokenize_text h other.source
    have hback : (readTree other e.text).value = .ok e' := by
      rw [readTree_of_tokenize hcut]
      exact ofTokens_eq_ok_iff_derives.2 ⟨hend, _, hlimit, hd⟩
    rw [calculate_of_readTree hback, calculate_of_readTree hread, evaluate_of_unplaced he]

/-- The text of `-0.5*3` as a tree needs three levels of nesting, and has the value of `-0.5*3`. -/
theorem Expr.text_reads_back_product :
    (∃ tokens, (tokenize "sums" "((-0.5) * 3)").value = .ok tokens ∧
      (∃ e, (ofTokens "sums" 3 tokens).value = .ok e) ∧
      ∃ p, (ofTokens "sums" 2 tokens).value = .error ⟨.ungrammatical (.tooDeep 2), "sums", p⟩) ∧
    (calculate { maxDepth := 3 } "((-0.5) * 3)").value = (calculate .standard "-0.5*3").value := by
  have htext : (joined .mul (signed .minus (literal (.float 0.5) ⟨1, 1, 1⟩) ⟨0, 1, 0⟩)
      (literal (.int 3) ⟨5, 1, 5⟩) ⟨4, 1, 4⟩).text = "((-0.5) * 3)" := by
    decide +kernel
  have hread : (readTree .standard "-0.5*3").value =
      .ok (joined .mul (signed .minus (literal (.float 0.5) ⟨1, 1, 1⟩) ⟨0, 1, 0⟩)
        (literal (.int 3) ⟨5, 1, 5⟩) ⟨4, 1, 4⟩) := by
    decide +kernel
  have hfinite : (0.5 : Float).isFinite = true ∧ Binary64.isNegative 0.5 = false := by
    decide +kernel
  obtain ⟨hback, hvalue⟩ := text_reads_back (joined .mul (signed .minus
    (literal (.float 0.5) ⟨1, 1, 1⟩) ⟨0, 1, 0⟩) (literal (.int 3) ⟨5, 1, 5⟩) ⟨4, 1, 4⟩)
    ⟨hfinite, show (0 : Int) ≤ (3 : Int64).toInt by decide⟩
  obtain ⟨tokens, hcut, hlimit⟩ := hback "sums"
  have hsame := hvalue .standard { maxDepth := 3 } "-0.5*3" hread (by decide)
  rw [htext] at hcut hsame
  obtain ⟨e, he, -⟩ := (hlimit 3).1.2 (by decide)
  exact ⟨⟨tokens, hcut, ⟨e, he⟩, (hlimit 2).2 (by decide)⟩, hsame⟩

end Reckoner
