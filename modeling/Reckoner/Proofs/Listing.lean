/-
**A tree lists what its text says.**

Read from left to right, a sign before its operand and an operation between its operands, a tree
lists numbers and operators with their places.  This is the list of the tokens it was read from,
brackets and the end mark left out: chains are joined anew from the left with every operand, but no
token is lost in this, seen twice or moved.  Together with the tiling of the text by its lexemes it
makes a map of the text: every character that is neither a separator nor a bracket belongs to one
node, and a node stands where the character of its operator or the first digit of its literal does.

Main definitions:

* `Reckoner.Entry` — numbers and operators with their places;
* `Reckoner.Expr.listing`, `Reckoner.Token.listed?` — the entries of a tree, and that of a token;
* `Reckoner.Entry.stretch` — the characters of a text that belong to an entry;
* `Reckoner.Entry.StandsIn`, `Reckoner.Entry.Covers` — the text has the entry at its place, and the
  entry has a character of the text.

Main results:

* `Reckoner.Grammar.Derives.listing_eq`, `Reckoner.Expr.listing_of_ofTokens` — **a tree lists the
  tokens it was read from**;
* `Reckoner.readTree_listing` — **the tree of a text is a complete and exact map of it**.
-/

import Reckoner.Calculation
import Reckoner.Proofs.Reading
import Reckoner.Proofs.Tiling

set_option relaxedAutoImplicit false
set_option autoImplicit false

namespace Reckoner

open Grammar

/-! ### Entries -/

/-- What nodes of trees have in common with tokens: a number or the character of an operator, and
a place. -/
inductive Entry where
  | number (value : Number) (position : Position)
  | operator (symbol : Char) (position : Position)
deriving DecidableEq

/-- The place of an entry. -/
def Entry.position : Entry → Position
  | number _ p => p
  | operator _ p => p

/-- The nodes of a tree from left to right: a sign stands before its operand, and an operation
between its operands. -/
def Expr.listing : Expr → List Entry
  | literal value p => [.number value p]
  | signed sign operand p => .operator sign.symbol p :: operand.listing
  | joined op left right p => left.listing ++ .operator op.symbol p :: right.listing

namespace Token

/-- The entry of a token, unless it is a bracket, an end mark, or a literal without a number. -/
def listed? (t : Token) : Option Entry :=
  match t.kind.operation? with
  | some op => some (.operator op.symbol t.position)
  | none =>
      if t.kind = .integer ∨ t.kind = .decimal then
        t.value.map fun value => .number value t.position
      else none

theorem listed?_number {t : Token} {value : Number} (h : IsNumber t value) :
    t.listed? = some (.number value t.position) := by
  obtain ⟨hk | hk, hv⟩ := h <;>
    simp [listed?, hk, hv, Kind.operation?, Kind.additive?, Kind.multiplicative?]

theorem listed?_operation {t : Token} {op : Operation} (h : t.kind.operation? = some op) :
    t.listed? = some (.operator op.symbol t.position) := by
  simp only [listed?, h]

/-- The characters that are signs are operations elsewhere. -/
theorem listed?_sign {t : Token} {sign : Sign} (h : t.kind.sign? = some sign) :
    t.listed? = some (.operator sign.symbol t.position) := by
  have hop : ∃ op : Operation, t.kind.operation? = some op ∧ op.symbol = sign.symbol := by
    cases hk : t.kind <;> rw [hk] at h <;> cases h <;> exact ⟨_, rfl, rfl⟩
  obtain ⟨op, hop, hsymbol⟩ := hop
  rw [listed?_operation hop, hsymbol]

theorem listed?_bracket {t : Token} (h : t.kind = .opening ∨ t.kind = .closing ∨ t.kind = .ending) :
    t.listed? = none := by
  rcases h with h | h | h <;>
    simp [listed?, h, Kind.operation?, Kind.additive?, Kind.multiplicative?]

theorem position_of_listed? {t : Token} {entry : Entry} (h : t.listed? = some entry) :
    entry.position = t.position := by
  rw [listed?] at h
  split at h
  · rw [← Option.some.inj h]
    rfl
  · split_ifs at h
    obtain ⟨value, -, rfl⟩ := Option.map_eq_some_iff.1 h
    rfl

end Token

/-! ### Trees and tokens -/

/-- **A phrase lists its tokens**, but for the brackets. -/
theorem Grammar.Derives.listing_eq {p : Phrase} {ts : List Token} {e : Expr} {d : Nat}
    (h : Derives p ts e d) : e.listing = ts.filterMap Token.listed? := by
  induction h with
  | number h => simp [Expr.listing, Token.listed?_number h]
  | signed h _ ih => simp [Expr.listing, Token.listed?_sign h, ih]
  | bracketed hf hl _ ih =>
      simp [Token.listed?_bracket (Or.inl hf), Token.listed?_bracket (Or.inr (Or.inl hl)), ih]
  | single _ ih => exact ih
  | joined h _ _ ihl ihr =>
      simp [Expr.listing, Token.listed?_operation (Rank.operation?_of_joint h), ihl, ihr]

/-- **A tree lists the tokens before the end mark**, whatever tokens it was read from. -/
theorem Expr.listing_of_ofTokens {source : String} {limit : Nat} {tokens : Array Token} {e : Expr}
    (h : (ofTokens source limit tokens).value = .ok e) :
    e.listing = (beforeEnd tokens.toList).filterMap Token.listed? := by
  obtain ⟨-, d, -, hd⟩ := ofTokens_eq_ok_iff_derives.1 h
  exact hd.listing_eq

/-! ### Entries and texts -/

namespace Entry

/-- May the character be part of a numeral? -/
def ofNumeral (c : Char) : Bool := c.isDigit || c == '.'

/-- The characters of a text that belong to an entry, if it stands there: that of the operator, or
all digits and points from the place of the number on. -/
def stretch (text : List Char) : Entry → List Char
  | number _ p => (text.drop p.offset).takeWhile ofNumeral
  | operator _ p => (text.drop p.offset).take 1

/-- The entry is written with these characters. -/
def SpelledBy : Entry → List Char → Prop
  | number value _, spelling => (∃ pointed, IsNumeral spelling pointed) ∧
      value = Number.ofLiteral spelling
  | operator symbol _, spelling => spelling = [symbol]

/-- The character is that of the operator, or a digit where the entry is a number. -/
def BeginsWith : Entry → Char → Prop
  | number _ _, c => c.isDigit = true
  | operator symbol _, c => c = symbol

/-- The text has the entry at its place: its stretch of the text is what it is written with, and
the place is behind all characters before it. -/
structure StandsIn (text : List Char) (entry : Entry) : Prop where
  spelled : entry.SpelledBy (entry.stretch text)
  begins : ∃ c, text[entry.position.offset]? = some c ∧ entry.BeginsWith c
  placed : entry.position = Position.start.advanceOver (text.take entry.position.offset)

/-- The character at this offset of the text belongs to the entry. -/
def Covers (text : List Char) (entry : Entry) (i : Nat) : Prop :=
  entry.position.offset ≤ i ∧ i < entry.position.offset + (entry.stretch text).length

end Entry

section Texts

variable {text before spelling after : List Char} {p : Position} {ls : List Lexeme} {l : Lexeme}
  {entry : Entry}

theorem IsNumeral.ofNumeral {pointed : Bool} (h : IsNumeral spelling pointed) :
    ∀ c ∈ spelling, Entry.ofNumeral c = true := by
  have hdigit {ds : List Char} (hd : ∀ d ∈ ds, d.isDigit = true) :
      ∀ d ∈ ds, Entry.ofNumeral d = true := by
    intro d hmem
    rw [Entry.ofNumeral, hd d hmem, Bool.true_or]
  cases h with
  | whole _ hw => exact hdigit hw
  | pointed _ hw hf =>
      refine List.forall_mem_append.2 ⟨hdigit hw, List.forall_mem_cons.2 ⟨rfl, hdigit hf⟩⟩

theorem IsNumeral.exists_digit {pointed : Bool} (h : IsNumeral spelling pointed) :
    ∃ c rest, spelling = c :: rest ∧ c.isDigit = true := by
  cases h with
  | @whole whole hne hw =>
      obtain ⟨c, rest, rfl⟩ := List.exists_cons_of_ne_nil hne
      exact ⟨c, rest, rfl, hw c List.mem_cons_self⟩
  | @pointed whole fraction hne hw hf =>
      obtain ⟨c, rest, rfl⟩ := List.exists_cons_of_ne_nil hne
      exact ⟨c, _, rfl, hw c List.mem_cons_self⟩

/-- A numeral is all that can be made of the characters from its beginning on. -/
theorem IsNumeral.takeWhile_append {pointed : Bool} (h : IsNumeral spelling pointed)
    (hends : EndsNumeral after) : (spelling ++ after).takeWhile Entry.ofNumeral = spelling := by
  have hafter : after.takeWhile Entry.ofNumeral = [] := by
    cases after with
    | nil => rfl
    | cons c after =>
        obtain ⟨hd, hp⟩ := hends c rfl
        exact List.takeWhile_cons_of_neg (by simp [Entry.ofNumeral, hd, hp])
  rw [List.takeWhile_append_of_pos h.ofNumeral, hafter, List.append_nil]

/-- A token of a text is a number, an operator or a bracket. -/
theorem Spells.listed?_cases {t : Token} (h : Spells spelling t) :
    (∃ pointed, IsNumeral spelling pointed ∧ t.value.isSome ∧
      t.listed? = some (.number (Number.ofLiteral spelling) t.position)) ∨
    (∃ op : Operation, spelling = [op.symbol] ∧
      t.listed? = some (.operator op.symbol t.position)) ∨
    (spelling = ['('] ∨ spelling = [')']) ∧ (t.kind = .opening ∨ t.kind = .closing) ∧
      t.listed? = none := by
  cases h with
  | @numeral _ pointed p h =>
      exact Or.inl ⟨pointed, h, rfl, Token.listed?_number (isNumber_literal pointed _ p)⟩
  | @symbol c kind p h =>
      refine Or.inr ?_
      simp only [Kind.ofSymbol?] at h
      split at h <;> cases h
      · exact Or.inl ⟨.add, rfl, rfl⟩
      · exact Or.inl ⟨.sub, rfl, rfl⟩
      · exact Or.inl ⟨.mul, rfl, rfl⟩
      · exact Or.inl ⟨.div, rfl, rfl⟩
      · exact Or.inr ⟨Or.inl rfl, Or.inl rfl, rfl⟩
      · exact Or.inr ⟨Or.inr rfl, Or.inr rfl, rfl⟩

/-- A lexeme of a text stands behind the text before it. -/
theorem Tiles.exists_split (h : Tiles p text ls) (hl : l ∈ ls) :
    ∃ before after, text = before ++ (l.text ++ after) ∧
      l.token.position = p.advanceOver before ∧ (l.token.value.isSome → EndsNumeral after) := by
  induction h with
  | done => cases hl
  | @separator p c rest ls _ _ ih =>
      obtain ⟨before, after, htext, hplaced, hends⟩ := ih hl
      exact ⟨c :: before, after, by rw [htext, List.cons_append], hplaced, hends⟩
  | @lexeme p m rest ls placed _ ends _ ih =>
      rcases List.mem_cons.1 hl with rfl | hl
      · exact ⟨[], rest, rfl, placed, ends⟩
      · obtain ⟨before, after, htext, hplaced, hends⟩ := ih hl
        refine ⟨m.text ++ before, after, by rw [htext, List.append_assoc], ?_, hends⟩
        rw [Position.advanceOver_append, hplaced]

/-- The entry of a lexeme is written with the characters of the lexeme, and stands in the text. -/
theorem Tiles.standsIn (h : Tiles .start text ls) (hl : l ∈ ls)
    (he : l.token.listed? = some entry) : entry.stretch text = l.text ∧ entry.StandsIn text := by
  obtain ⟨before, after, htext, hplaced, hends⟩ := h.exists_split hl
  have hposition := (Token.position_of_listed? he).trans hplaced
  have hoffset : entry.position.offset = before.length := by
    rw [hposition, Position.offset_advanceOver]
    exact Nat.zero_add _
  have hdrop : text.drop entry.position.offset = l.text ++ after := by
    rw [htext, hoffset, List.drop_left]
  have hplaced' :
      entry.position = Position.start.advanceOver (text.take entry.position.offset) := by
    rw [hoffset, htext, List.take_left, hposition]
  have hfirst : text[entry.position.offset]? = (l.text ++ after).head? := by
    rw [← hdrop, List.head?_drop]
  rcases (h.spelled l hl).listed?_cases with
    ⟨pointed, hn, hv, hentry⟩ | ⟨op, hop, hentry⟩ | ⟨-, -, hentry⟩
  · rw [hentry, Option.some.injEq] at he
    subst he
    have hstretch : (Entry.number (Number.ofLiteral l.text) l.token.position).stretch text =
        l.text := by
      simp only [Entry.stretch, Entry.position] at hdrop ⊢
      rw [hdrop, hn.takeWhile_append (hends hv)]
    obtain ⟨c, rest, hc, hdigit⟩ := hn.exists_digit
    exact ⟨hstretch, by rw [hstretch]; exact ⟨⟨pointed, hn⟩, rfl⟩,
      ⟨c, by rw [hfirst, hc]; rfl, hdigit⟩, hplaced'⟩
  · rw [hentry, Option.some.injEq] at he
    subst he
    have hstretch : (Entry.operator op.symbol l.token.position).stretch text = l.text := by
      simp only [Entry.stretch, Entry.position] at hdrop ⊢
      rw [hdrop, hop]
      rfl
    exact ⟨hstretch, by rw [hstretch]; exact hop, ⟨_, by rw [hfirst, hop]; rfl, rfl⟩, hplaced'⟩
  · rw [hentry] at he
    cases he

/-- Every character that is no separator belongs to a lexeme. -/
theorem Tiles.exists_covering (h : Tiles p text ls) : ∀ (i : Nat) (c : Char), text[i]? = some c →
    isSeparator c = false → ∃ l ∈ ls, c ∈ l.text ∧ l.token.position.offset ≤ p.offset + i ∧
      p.offset + i < l.token.position.offset + l.text.length := by
  induction h with
  | done => simp
  | @separator p d rest ls hd _ ih =>
      intro i c hc hs
      cases i with
      | zero =>
          rw [List.getElem?_cons_zero, Option.some.injEq] at hc
          rw [hc, hs] at hd
          cases hd
      | succ i =>
          obtain ⟨l, hl, hmem, hlow, hhigh⟩ := ih i c hc hs
          rw [Position.offset_advance] at hlow hhigh
          exact ⟨l, hl, hmem, by omega, by omega⟩
  | @lexeme p m rest ls placed _ _ _ ih =>
      intro i c hc hs
      subst placed
      rcases Nat.lt_or_ge i m.text.length with hi | hi
      · rw [List.getElem?_append_left hi] at hc
        exact ⟨m, List.mem_cons_self, List.mem_of_getElem? hc, by omega, by omega⟩
      · rw [List.getElem?_append_right hi] at hc
        obtain ⟨l, hl, hmem, hlow, hhigh⟩ := ih _ c hc hs
        rw [Position.offset_advanceOver] at hlow hhigh
        exact ⟨l, List.mem_cons_of_mem _ hl, hmem, by omega, by omega⟩

/-- No character belongs to two lexemes. -/
theorem Tiles.disjoint (h : Tiles p text ls) : ls.Pairwise fun l m =>
    l.token.position.offset + l.text.length ≤ m.token.position.offset := by
  induction h with
  | done => exact .nil
  | separator _ _ ih => exact ih
  | lexeme placed _ _ more ih =>
      subst placed
      refine List.pairwise_cons.2 ⟨fun m hm => ?_, ih⟩
      have hbound := (more.offsets.1 m hm).1
      rwa [Position.offset_advanceOver] at hbound

end Texts

/-! ### Maps of texts -/

section Maps

variable {text : List Char} {ls : List Lexeme}

/-- The entries of a text in their order. -/
def entries (ls : List Lexeme) : List Entry := ls.filterMap fun l => l.token.listed?

theorem mem_entries {entry : Entry} :
    entry ∈ entries ls ↔ ∃ l ∈ ls, l.token.listed? = some entry := List.mem_filterMap

theorem filterMap_tokens (ls : List Lexeme) :
    (ls.map Lexeme.token).filterMap Token.listed? = entries ls := by
  rw [List.filterMap_map]
  rfl

/-- The tokens of the lexemes are those before the end mark. -/
theorem Tiles.beforeEnd_eq (h : Tiles .start text ls) :
    beforeEnd (ls.map Lexeme.token ++ [endMark text]) = ls.map Lexeme.token := by
  refine beforeEnd_append_cons (fun t ht => ?_) rfl
  obtain ⟨l, hl, rfl⟩ := List.mem_map.1 ht
  exact (h.spelled l hl).wellSpelled.kind_ne_ending

/-- No character belongs to two entries. -/
theorem Tiles.entries_disjoint (h : Tiles .start text ls) : (entries ls).Pairwise fun a b =>
    a.position.offset + (a.stretch text).length ≤ b.position.offset := by
  refine List.pairwise_filterMap.2 (h.disjoint.imp_of_mem fun hl _ hlm a ha b hb => ?_)
  rw [(h.standsIn hl ha).1, Token.position_of_listed? ha, Token.position_of_listed? hb]
  exact hlm

theorem Tiles.eq_of_covers (h : Tiles .start text ls) {a b : Entry} (ha : a ∈ entries ls)
    (hb : b ∈ entries ls) {i : Nat} (hai : a.Covers text i) (hbi : b.Covers text i) : a = b := by
  have hpair : (entries ls).Pairwise fun a b => ¬ (a.Covers text i ∧ b.Covers text i) := by
    refine h.entries_disjoint.imp fun hab hboth => ?_
    have hhigh := hboth.1.2
    have hlow := hboth.2.1
    omega
  have hsame : (entries ls).Pairwise fun a b => a.Covers text i ∧ b.Covers text i → a = b :=
    hpair.imp fun hnot hboth => absurd hboth hnot
  have hflip : (entries ls).Pairwise fun a b => b.Covers text i ∧ a.Covers text i → b = a :=
    hpair.imp fun hnot hboth => absurd hboth.symm hnot
  exact List.Pairwise.forall_of_forall_of_flip (fun _ _ _ => rfl) hsame hflip ha hb ⟨hai, hbi⟩

/-- Every character but separators and brackets belongs to one entry. -/
theorem Tiles.existsUnique_covers (h : Tiles .start text ls) {i : Nat} {c : Char}
    (hc : text[i]? = some c) (hs : isSeparator c = false) (ho : c ≠ '(') (hl : c ≠ ')') :
    ∃! entry, entry ∈ entries ls ∧ entry.Covers text i := by
  obtain ⟨l, hmem, hchar, hlow, hhigh⟩ := h.exists_covering i c hc hs
  have hstart : Position.start.offset + i = i := Nat.zero_add i
  rw [hstart] at hlow hhigh
  obtain ⟨entry, he⟩ : ∃ entry, l.token.listed? = some entry := by
    rcases (h.spelled l hmem).listed?_cases with ⟨_, _, _, he⟩ | ⟨_, _, he⟩ | ⟨hbracket, -, -⟩
    · exact ⟨_, he⟩
    · exact ⟨_, he⟩
    · rcases hbracket with hbracket | hbracket <;> rw [hbracket, List.mem_singleton] at hchar
      · exact absurd hchar ho
      · exact absurd hchar hl
  have hentry : entry ∈ entries ls := mem_entries.2 ⟨l, hmem, he⟩
  have hcovers : entry.Covers text i := by
    rw [Entry.Covers, (h.standsIn hmem he).1, Token.position_of_listed? he]
    exact ⟨hlow, hhigh⟩
  exact ⟨entry, ⟨hentry, hcovers⟩, fun other hother =>
    h.eq_of_covers hother.1 hentry hother.2 hcovers⟩

/-- The character of an operation is an entry of its own. -/
theorem Tiles.exists_operator (h : Tiles .start text ls) {i : Nat} {op : Operation}
    (hop : text[i]? = some op.symbol) :
    ∃ p : Position, p.offset = i ∧ .operator op.symbol p ∈ entries ls := by
  have hplain : isSeparator op.symbol = false ∧ Entry.ofNumeral op.symbol = false ∧
      op.symbol ≠ '(' ∧ op.symbol ≠ ')' := by
    cases op <;> decide
  obtain ⟨hs, hn, ho, hc⟩ := hplain
  obtain ⟨l, hl, hchar, hlow, hhigh⟩ := h.exists_covering i _ hop hs
  rcases (h.spelled l hl).listed?_cases with
    ⟨_, hnumeral, -, -⟩ | ⟨op', htext, he⟩ | ⟨hbracket, -, -⟩
  · rw [hnumeral.ofNumeral _ hchar] at hn
    cases hn
  · rw [htext, List.mem_singleton] at hchar
    rw [htext, List.length_singleton] at hhigh
    have hstart : Position.start.offset + i = i := Nat.zero_add i
    exact ⟨l.token.position, by omega, mem_entries.2 ⟨l, hl, by rw [hchar, he]⟩⟩
  · rcases hbracket with hbracket | hbracket <;> rw [hbracket, List.mem_singleton] at hchar
    · exact absurd hchar ho
    · exact absurd hchar hc

/-- The tokens of a text without an entry are brackets and the end mark. -/
theorem Tiles.listed?_eq_none_iff (h : Tiles .start text ls) {t : Token}
    (ht : t ∈ ls.map Lexeme.token ++ [endMark text]) :
    t.listed? = none ↔ t.kind = .opening ∨ t.kind = .closing ∨ t.kind = .ending := by
  refine ⟨fun hnone => ?_, Token.listed?_bracket⟩
  rcases List.mem_append.1 ht with ht | ht
  · obtain ⟨l, hl, rfl⟩ := List.mem_map.1 ht
    rcases (h.spelled l hl).listed?_cases with ⟨_, _, _, he⟩ | ⟨_, _, he⟩ | ⟨-, hkind, -⟩
    · rw [he] at hnone
      cases hnone
    · rw [he] at hnone
      cases hnone
    · exact hkind.imp_right Or.inl
  · rw [List.mem_singleton.1 ht]
    exact Or.inr (Or.inr rfl)

end Maps

/-- **The tree of a text is a complete and exact map of it.**  From left to right it lists the
tokens of the text, brackets and the end mark left out, at offsets that grow; each of its entries
stands in the text where it says; every operation of the text is an entry; and every character that
is neither a separator nor a bracket belongs to exactly one entry. -/
theorem readTree_listing {settings : Settings} {text : String} {e : Expr}
    (h : (readTree settings text).value = .ok e) :
    ∃ tokens, (tokenize settings.source text).value = .ok tokens ∧
      e.listing = tokens.toList.filterMap Token.listed? ∧
      (∀ t ∈ tokens.toList, t.listed? = none ↔
        t.kind = .opening ∨ t.kind = .closing ∨ t.kind = .ending) ∧
      e.listing.Pairwise (fun a b => a.position.offset < b.position.offset) ∧
      (∀ entry ∈ e.listing, entry.StandsIn text.toList) ∧
      (∀ (i : Nat) (op : Operation), text.toList[i]? = some op.symbol →
        ∃ p : Position, p.offset = i ∧ .operator op.symbol p ∈ e.listing) ∧
      ∀ (i : Nat) (c : Char), text.toList[i]? = some c → isSeparator c = false → c ≠ '(' →
        c ≠ ')' → ∃! entry, entry ∈ e.listing ∧ entry.Covers text.toList i := by
  rw [value_readTree] at h
  cases hcut : (tokenize settings.source text).value with
  | error fault =>
      rw [hcut] at h
      cases h
  | ok tokens =>
      rw [hcut] at h
      obtain ⟨ls, htiles, rfl⟩ := tokenize_eq_ok_iff.1 hcut
      have hentries : e.listing = entries ls := by
        rw [Expr.listing_of_ofTokens h, List.toList_toArray, htiles.beforeEnd_eq, filterMap_tokens]
      have hmark : (endMark text.toList).listed? = none :=
        Token.listed?_bracket (Or.inr (Or.inr rfl))
      refine ⟨_, rfl, ?_, fun t ht => htiles.listed?_eq_none_iff ht, ?_⟩
      · rw [hentries, List.toList_toArray, List.filterMap_append, filterMap_tokens]
        simp [hmark]
      rw [hentries]
      refine ⟨?_, fun entry he => ?_, fun i op hop => htiles.exists_operator hop,
        fun i c hc hs ho hl => htiles.existsUnique_covers hc hs ho hl⟩
      · refine List.pairwise_filterMap.2 (htiles.offsets.2.imp fun hlm a ha b hb => ?_)
        rw [Token.position_of_listed? ha, Token.position_of_listed? hb]
        exact hlm
      · obtain ⟨l, hl, he⟩ := mem_entries.1 he
        exact (htiles.standsIn hl he).2

/-- A sign, brackets that leave no trace, and a numeral that ends with its point. -/
theorem readTree_listing_signed_product :
    ∃ e, (readTree .standard "-2*(3+4.)").value = .ok e ∧
      e.listing = [.operator '-' ⟨0, 1, 0⟩, .number (.int 2) ⟨1, 1, 1⟩, .operator '*' ⟨2, 1, 2⟩,
        .number (.int 3) ⟨4, 1, 4⟩, .operator '+' ⟨5, 1, 5⟩, .number (.float 4) ⟨6, 1, 6⟩] ∧
      ∀ entry ∈ e.listing, entry.StandsIn "-2*(3+4.)".toList := by
  have hread : (readTree .standard "-2*(3+4.)").value =
      .ok (.joined .mul (.signed .minus (.literal (.int 2) ⟨1, 1, 1⟩) ⟨0, 1, 0⟩)
        (.joined .add (.literal (.int 3) ⟨4, 1, 4⟩) (.literal (.float 4) ⟨6, 1, 6⟩) ⟨5, 1, 5⟩)
        ⟨2, 1, 2⟩) := by
    decide +kernel
  obtain ⟨tokens, -, -, -, -, hstands, -⟩ := readTree_listing hread
  exact ⟨_, hread, rfl, hstands⟩

end Reckoner
