/-
**The reader of tokens follows the grammar.**

The reader of `Reckoner/Expr/OfTokens.lean` keeps a cursor into an array, holds the last token
behind its end, and counts how many signs and brackets it may still open.  This module relates all
of it to the grammar of `Reckoner/Proofs/Grammar.lean`, in both directions.

* From derivations to runs: where the tokens ahead begin with a phrase, the rule of that phrase
  reads just this phrase; if the phrase needs more signs and brackets open at once than there is
  room for, the rule ends with the lapse that says so (`Reckoner.Expr.rule_of_derives`).
* From runs to derivations: whatever a rule comes to, be it a tree or a lapse, an `Account` says
  how the tokens passed on the way are related to the grammar (`Reckoner.Expr.rule_account`).

The second part is about cursors with an end mark ahead.  No rule passes an end mark, so that the
token held behind the end is never reached from there.

Main definitions:

* `Reckoner.Expr.Cursor.ahead` — the tokens that the reader has not passed;
* `Reckoner.Expr.Reaches` — one cursor stands a number of tokens behind another, equally deep;
* `Reckoner.Expr.rule`, `Reckoner.Expr.resume` — the rule of a phrase, and what is left of it when
  an operand has been read;
* `Reckoner.Expr.Account` — how an outcome is related to the grammar.

Main results:

* `Reckoner.Expr.rule_of_derives` — phrases are read where they stand;
* `Reckoner.Expr.rule_account` — nothing else is read;
* `Reckoner.Grammar.Derives.unique` — the grammar is unambiguous;
* `Reckoner.Expr.ofTokens_eq_ok_iff` — **the reader accepts the grammar, within its limit, and
  builds the one tree that the grammar gives**.
-/

import Reckoner.Expr.OfTokens
import Reckoner.Proofs.Grammar
import Mathlib.Tactic.SplitIfs

set_option relaxedAutoImplicit false
set_option autoImplicit false

namespace Reckoner.Expr

open Grammar

/-! ### Cursors -/

/-- The tokens that the reader has not passed. -/
def Cursor.ahead (tokens : Array Token) (c : Cursor) : List Token := tokens.toList.drop c.index

/-- The cursor `next` stands `n` tokens behind `c`, with as many signs and brackets open. -/
structure Reaches (c : Cursor) (n : Nat) (next : Cursor) : Prop where
  index : next.index = c.index + n
  depth : next.depth = c.depth

theorem Reaches.refl (c : Cursor) : Reaches c 0 c := ⟨rfl, rfl⟩

theorem Reaches.trans {a b c : Cursor} {m n : Nat} (h₁ : Reaches a m b) (h₂ : Reaches b n c) :
    Reaches a (m + n) c :=
  ⟨by rw [h₂.index, h₁.index]; omega, by rw [h₂.depth, h₁.depth]⟩

section Lengths

variable {a b c d : Cursor} {t : Token} {ts us : List Token}

theorem Reaches.cons (h₁ : Reaches a 1 b) (h₂ : Reaches b ts.length c) :
    Reaches a (t :: ts).length c := by
  rw [List.length_cons, Nat.add_comm]
  exact h₁.trans h₂

theorem Reaches.concat (h₁ : Reaches a ts.length b) (h₂ : Reaches b 1 c) :
    Reaches a (ts ++ [t]).length c := by
  rw [List.length_append]
  exact h₁.trans h₂

theorem Reaches.append (h₁ : Reaches a ts.length b) (h₂ : Reaches b us.length c) :
    Reaches a (ts ++ us).length c := by
  rw [List.length_append]
  exact h₁.trans h₂

end Lengths

section Ahead

variable {tokens : Array Token} {c next : Cursor} {t : Token} {ts rest : List Token}

/-- Behind the tokens passed are the tokens that follow them. -/
theorem ahead_of_index (h : c.ahead tokens = ts ++ rest)
    (hi : next.index = c.index + ts.length) : next.ahead tokens = rest := by
  have hdrop : next.ahead tokens = (c.ahead tokens).drop ts.length := by
    rw [Cursor.ahead, Cursor.ahead, List.drop_drop, hi]
  rw [hdrop, h, List.drop_left]

theorem Reaches.ahead (hr : Reaches c ts.length next) (h : c.ahead tokens = ts ++ rest) :
    next.ahead tokens = rest := ahead_of_index h hr.index

theorem index_lt_of_ahead (h : c.ahead tokens = t :: rest) : c.index < tokens.size := by
  have hlen : (c.ahead tokens).length = tokens.size - c.index := by simp [Cursor.ahead]
  rw [h, List.length_cons] at hlen
  omega

theorem getElem?_of_ahead (h : c.ahead tokens = t :: rest) :
    tokens.toList[c.index]? = some t := by
  have hhead : (c.ahead tokens)[0]? = some t := by rw [h]; rfl
  simpa [Cursor.ahead] using hhead

theorem tokenAt?_of_ahead (h : c.ahead tokens = t :: rest) : tokenAt? tokens c.index = some t := by
  rw [tokenAt?, ← Array.getElem?_toList, getElem?_of_ahead h, Option.some_or]

theorem kindAt_of_ahead (h : c.ahead tokens = t :: rest) : kindAt tokens c.index = t.kind := by
  rw [kindAt, tokenAt?_of_ahead h]

theorem positionAt_of_ahead (h : c.ahead tokens = t :: rest) :
    positionAt tokens c.index = t.position := by
  rw [positionAt, tokenAt?_of_ahead h]

theorem reaches_advance (h : c.ahead tokens = t :: rest) : Reaches c 1 (c.advance tokens) := by
  rw [Cursor.advance, if_pos (index_lt_of_ahead h)]
  exact ⟨rfl, rfl⟩

theorem ahead_advance (h : c.ahead tokens = t :: rest) :
    (c.advance tokens).ahead tokens = rest := by
  have hr : Reaches c [t].length (c.advance tokens) := reaches_advance h
  exact hr.ahead h

end Ahead

/-! ### Rules of phrases -/

/-- The rule of a phrase. -/
def rule (tokens : Array Token) (room : Nat) : Phrase → Rule
  | .factor => factor tokens room
  | .chain .term => term tokens room
  | .chain .expression => expression tokens room

theorem rule_chain (tokens : Array Token) (room : Nat) (rank : Rank) :
    rule tokens room (.chain rank) =
      chain tokens rank.joint? (rule tokens room rank.operand) := by
  cases rank <;> rfl

/-- What is left of the rule of a phrase when the reader stands at `c` behind the part of the
phrase that makes the tree `e`. -/
def resume (tokens : Array Token) (room : Nat) : Phrase → Expr → Rule
  | .factor, e, c => .tree e c
  | .chain rank, e, c => chainFrom tokens rank.joint? (rule tokens room rank.operand) e c

/-- A phrase that does not go on is complete. -/
theorem resume_of_stops {tokens : Array Token} {room : Nat} {p : Phrase} {e : Expr} {c : Cursor}
    (h : p.Stops (kindAt tokens c.index)) : resume tokens room p e c = .tree e c := by
  cases p with
  | factor => rfl
  | chain rank => rw [resume, chainFrom, (Phrase.stops_chain_iff.1 h).1]

/-- An operand that does not go on is followed by the rest of the chain around it. -/
theorem rule_chain_of_operand {tokens : Array Token} {room : Nat} {rank : Rank} {e : Expr}
    {c next : Cursor} (h : rule tokens room rank.operand c = resume tokens room rank.operand e next)
    (hs : rank.operand.Stops (kindAt tokens next.index)) :
    rule tokens room (.chain rank) c = resume tokens room (.chain rank) e next := by
  rw [resume_of_stops hs] at h
  rw [rule_chain, chain, h, resume]

theorem rule_chain_of_lapse {tokens : Array Token} {room : Nat} {rank : Rank} {l : Lapse}
    {c stop : Cursor} (h : rule tokens room rank.operand c = .lapse l stop) :
    rule tokens room (.chain rank) c = .lapse l stop := by
  rw [rule_chain, chain, h]

/-- A chain goes on with an operation and the operand behind it. -/
theorem resume_chain_of_operand {tokens : Array Token} {room : Nat} {rank : Rank} {t : Token}
    {op : Operation} {rest : List Token} {l r : Expr} {c next : Cursor}
    (ht : c.ahead tokens = t :: rest) (hj : rank.joint? t.kind = some op)
    (h : rule tokens room rank.operand (c.advance tokens) = .tree r next)
    (hi : c.index < next.index) :
    resume tokens room (.chain rank) l c =
      resume tokens room (.chain rank) (.joined op l r t.position) next := by
  rw [resume, chainFrom, kindAt_of_ahead ht, hj]
  simp only [h, positionAt_of_ahead ht]
  rw [dif_pos ⟨hi, index_lt_of_ahead ht⟩, resume]

theorem resume_chain_of_lapse {tokens : Array Token} {room : Nat} {rank : Rank} {t : Token}
    {op : Operation} {rest : List Token} {e : Expr} {l : Lapse} {c stop : Cursor}
    (ht : c.ahead tokens = t :: rest) (hj : rank.joint? t.kind = some op)
    (h : rule tokens room rank.operand (c.advance tokens) = .lapse l stop) :
    resume tokens room (.chain rank) e c = .lapse l stop := by
  rw [resume, chainFrom, kindAt_of_ahead ht, hj]
  simp only [h]

/-! ### Operands -/

/-- Passes the first token of an operand, noting that it is one. -/
def Cursor.enter (tokens : Array Token) (c : Cursor) : Cursor := c.offer.advance tokens

section Primary

variable {tokens : Array Token} {behindSign inBrackets : Rule} {c : Cursor} {t : Token}
  {rest : List Token}

theorem reaches_enter (ht : c.ahead tokens = t :: rest) : Reaches c 1 (c.enter tokens) := by
  have h : Reaches c.offer 1 (c.enter tokens) := reaches_advance (c := c.offer) ht
  exact ⟨h.index, h.depth⟩

theorem ahead_enter (ht : c.ahead tokens = t :: rest) : (c.enter tokens).ahead tokens = rest :=
  ahead_advance (c := c.offer) ht

/-! What an operand comes to is told by the token that the reader sees, be it held. -/

theorem primary_number {value : Number} (ht : tokenAt? tokens c.index = some t)
    (h : IsNumber t value) : primary tokens behindSign inBrackets c =
      .tree (.literal value t.position) (c.enter tokens) := by
  obtain ⟨hk | hk, hv⟩ := h <;>
    simp [primary, ht, hk, hv, Kind.sign?, Cursor.enter]

theorem primary_sign {sign : Sign} (ht : tokenAt? tokens c.index = some t)
    (h : t.kind.sign? = some sign) : primary tokens behindSign inBrackets c =
      match behindSign (c.enter tokens) with
      | .lapse lapse stop => .lapse lapse stop
      | .tree operand next => .tree (.signed sign operand t.position) next := by
  cases hr : behindSign (c.enter tokens) <;> rw [Cursor.enter] at hr <;>
    simp only [primary, ht, h, hr]

theorem primary_opening (ht : tokenAt? tokens c.index = some t) (h : t.kind = .opening) :
    primary tokens behindSign inBrackets c =
      match inBrackets (c.enter tokens) with
      | .lapse lapse stop => .lapse lapse stop
      | .tree inner next =>
          if kindAt tokens next.index = .closing then .tree inner (next.advance tokens)
          else .lapse .closingDue next := by
  cases hr : inBrackets (c.enter tokens) <;> rw [Cursor.enter] at hr <;>
    simp only [primary, ht, h, Kind.sign?, hr]

/-- A token that cannot begin an operand is refused where it stands. -/
theorem primary_other (ht : tokenAt? tokens c.index = some t) (h : (Phase.due 0).next t = none) :
    primary tokens behindSign inBrackets c = .lapse .operandDue c.offer := by
  simp only [Phase.next] at h
  split_ifs at h with hs ho hn
  rw [Option.not_isSome_iff_eq_none] at hs
  cases hk : t.kind <;> cases hv : t.value <;>
    simp_all [primary, Kind.sign?]

end Primary

/-- The cursor one sign or bracket further in. -/
def Cursor.inward (c : Cursor) : Cursor := { c with depth := c.depth + 1 }

/-- What the rule of a phrase comes to behind a sign or bracket that there was `room` to open. -/
def inside (tokens : Array Token) (room : Nat) (p : Phrase) : Rule :=
  match room with
  | 0 => barred
  | room + 1 => deeper (rule tokens room p)

theorem factor_eq (tokens : Array Token) (room : Nat) : rule tokens room .factor =
    primary tokens (inside tokens room .factor) (inside tokens room (.chain .expression)) := by
  cases room with
  | zero => exact funext fun c => factor.eq_1 tokens c
  | succ room => exact funext fun c => factor.eq_2 tokens c room

section Inside

variable {tokens : Array Token} {room n : Nat} {p : Phrase} {e : Expr} {c next stop : Cursor}
  {l : Lapse}

theorem inside_zero : inside tokens 0 p c = .lapse (.tooDeep c.depth) c := rfl

theorem inside_succ_of_tree (h : rule tokens room p c.inward = .tree e next) :
    inside tokens (room + 1) p c = .tree e { next with depth := next.depth - 1 } := by
  rw [Cursor.inward] at h
  simp only [inside, deeper, h]

theorem inside_of_tree (h : rule tokens room p c.inward = .tree e next)
    (hr : Reaches c.inward n next) :
    ∃ next', Reaches c n next' ∧ inside tokens (room + 1) p c = .tree e next' := by
  refine ⟨{ next with depth := next.depth - 1 }, ⟨hr.index, ?_⟩, inside_succ_of_tree h⟩
  simp [hr.depth, Cursor.inward]

theorem inside_of_lapse (h : rule tokens room p c.inward = .lapse l stop) :
    inside tokens (room + 1) p c = .lapse l { stop with depth := stop.depth - 1 } := by
  rw [Cursor.inward] at h
  simp only [inside, deeper, h]

end Inside

/-! ### From derivations to runs -/

/-- At `c` the rule of a phrase reads `n` tokens, which make the tree `e`, and goes on behind them,
provided that there is room for the `depth` signs and brackets open at once in them; otherwise it
ends with the lapse that says so. -/
structure Reads (tokens : Array Token) (room : Nat) (p : Phrase) (e : Expr) (n depth : Nat)
    (c : Cursor) : Prop where
  tree : depth ≤ room →
    ∃ next, Reaches c n next ∧ rule tokens room p c = resume tokens room p e next
  tooDeep : room < depth → ∃ stop, rule tokens room p c = .lapse (.tooDeep (c.depth + room)) stop

section Reads

variable {tokens : Array Token} {room n d : Nat} {p : Phrase} {e : Expr} {c : Cursor}
  {t : Token} {ts rest : List Token}

theorem Reads.tree_of_stops (h : Reads tokens room p e ts.length d c) (hd : d ≤ room)
    (ht : c.ahead tokens = ts ++ t :: rest) (hs : p.Stops t.kind) :
    ∃ next, Reaches c ts.length next ∧ rule tokens room p c = .tree e next := by
  obtain ⟨next, hr, hn⟩ := h.tree hd
  refine ⟨next, hr, ?_⟩
  rw [hn, resume_of_stops]
  rwa [kindAt_of_ahead (hr.ahead ht)]

/-- Behind a sign or bracket there is room for one sign or bracket less. -/
theorem inside_tree_of_reads (h : ∀ room c, c.ahead tokens = ts ++ t :: rest →
      Reads tokens room p e ts.length d c)
    (hd : d + 1 ≤ room) (ht : c.ahead tokens = ts ++ t :: rest) (hs : p.Stops t.kind) :
    ∃ next, Reaches c ts.length next ∧ inside tokens room p c = .tree e next := by
  cases room with
  | zero => omega
  | succ room =>
      obtain ⟨next, hr, hn⟩ := (h room c.inward ht).tree_of_stops (by omega) ht hs
      exact inside_of_tree hn hr

theorem inside_tooDeep_of_reads (h : ∀ room c, c.ahead tokens = ts ++ t :: rest →
      Reads tokens room p e ts.length d c)
    (hd : room < d + 1) (ht : c.ahead tokens = ts ++ t :: rest) :
    ∃ stop, inside tokens room p c = .lapse (.tooDeep (c.depth + room)) stop := by
  cases room with
  | zero => exact ⟨c, inside_zero⟩
  | succ room =>
      obtain ⟨stop, hn⟩ := (h room c.inward ht).tooDeep (by omega)
      have hdepth : c.inward.depth + room = c.depth + (room + 1) := by
        simp only [Cursor.inward]
        omega
      rw [hdepth] at hn
      exact ⟨_, inside_of_lapse hn⟩

/-! One lemma for each way of making a phrase.  What is read inside the phrase is read with less
room behind a sign or bracket, so the lemmas ask for it with any. -/

theorem reads_number {value : Number} (hc : c.ahead tokens = t :: rest) (hv : IsNumber t value) :
    Reads tokens room .factor (.literal value t.position) 1 0 c := by
  refine ⟨fun _ => ⟨c.enter tokens, reaches_enter hc, ?_⟩, fun hd => absurd hd (by omega)⟩
  rw [factor_eq, primary_number (tokenAt?_of_ahead hc) hv, resume]

theorem reads_signed {s : Token} {sign : Sign} (hc : c.ahead tokens = s :: (ts ++ t :: rest))
    (hs : s.kind.sign? = some sign)
    (h : ∀ room c, c.ahead tokens = ts ++ t :: rest →
      Reads tokens room .factor e ts.length d c) :
    Reads tokens room .factor (.signed sign e s.position) (s :: ts).length (d + 1) c := by
  have hin := ahead_enter hc
  constructor
  · intro hd
    obtain ⟨next, hr, hn⟩ := inside_tree_of_reads h hd hin trivial
    refine ⟨next, (reaches_enter hc).cons hr, ?_⟩
    rw [factor_eq, primary_sign (tokenAt?_of_ahead hc) hs, hn, resume]
  · intro hd
    obtain ⟨stop, hn⟩ := inside_tooDeep_of_reads h hd hin
    refine ⟨stop, ?_⟩
    rw [factor_eq, primary_sign (tokenAt?_of_ahead hc) hs, hn, (reaches_enter hc).depth]

theorem reads_bracketed {first last : Token}
    (hc : c.ahead tokens = first :: (ts ++ last :: t :: rest)) (hf : first.kind = .opening)
    (hl : last.kind = .closing)
    (h : ∀ room c, c.ahead tokens = ts ++ last :: t :: rest →
      Reads tokens room (.chain .expression) e ts.length d c) :
    Reads tokens room .factor e (first :: (ts ++ [last])).length (d + 1) c := by
  have hin := ahead_enter hc
  have hstops : (Phrase.chain .expression).Stops last.kind := hl ▸ Phrase.stops_closing _
  constructor
  · intro hd
    obtain ⟨next, hr, hn⟩ := inside_tree_of_reads h hd hin hstops
    have hlast := hr.ahead hin
    refine ⟨next.advance tokens, (reaches_enter hc).cons (hr.concat (reaches_advance hlast)), ?_⟩
    rw [factor_eq, primary_opening (tokenAt?_of_ahead hc) hf, hn, resume]
    simp only [kindAt_of_ahead hlast, hl, if_true]
  · intro hd
    obtain ⟨stop, hn⟩ := inside_tooDeep_of_reads h hd hin
    refine ⟨stop, ?_⟩
    rw [factor_eq, primary_opening (tokenAt?_of_ahead hc) hf, hn, (reaches_enter hc).depth]

theorem reads_single {rank : Rank} (hc : c.ahead tokens = ts ++ t :: rest)
    (hs : rank.operand.Stops t.kind) (h : Reads tokens room rank.operand e ts.length d c) :
    Reads tokens room (.chain rank) e ts.length d c := by
  constructor
  · intro hd
    obtain ⟨next, hr, hn⟩ := h.tree hd
    refine ⟨next, hr, rule_chain_of_operand hn ?_⟩
    rwa [kindAt_of_ahead (hr.ahead hc)]
  · intro hd
    obtain ⟨stop, hn⟩ := h.tooDeep hd
    exact ⟨stop, rule_chain_of_lapse hn⟩

theorem reads_joined {rank : Rank} {s : Token} {op : Operation} {ls rs : List Token} {l r : Expr}
    {d' : Nat} (hc : c.ahead tokens = ls ++ s :: (rs ++ t :: rest))
    (hop : rank.joint? s.kind = some op) (hs : rank.operand.Stops t.kind)
    (left : Reads tokens room (.chain rank) l ls.length d c)
    (right : ∀ room c, c.ahead tokens = rs ++ t :: rest →
      Reads tokens room rank.operand r rs.length d' c) :
    Reads tokens room (.chain rank) (.joined op l r s.position) (ls ++ s :: rs).length
      (max d d') c := by
  by_cases hd : d ≤ room
  · obtain ⟨mid, hmid, hrule⟩ := left.tree hd
    have hjoint := hmid.ahead hc
    have hpast := reaches_advance hjoint
    have hright := right room _ (ahead_advance hjoint)
    constructor
    · intro hd'
      obtain ⟨next, hr, hn⟩ := hright.tree_of_stops (by omega) (ahead_advance hjoint) hs
      -- the reader tests that a joint is passed, which it always is
      have hmoved : mid.index < next.index := by
        rw [hr.index, hpast.index]
        omega
      refine ⟨next, hmid.append (hpast.cons hr), ?_⟩
      rw [hrule, resume_chain_of_operand hjoint hop hn hmoved]
    · intro hd'
      obtain ⟨stop, hn⟩ := hright.tooDeep (by omega)
      refine ⟨stop, ?_⟩
      rw [hrule, resume_chain_of_lapse hjoint hop hn, (hmid.trans hpast).depth]
  · obtain ⟨stop, hn⟩ := left.tooDeep (by omega)
    exact ⟨fun hd' => absurd hd' (by omega), fun _ => ⟨stop, hn⟩⟩

end Reads

/-- **Phrases are read where they stand**: if the tokens ahead begin with a phrase, and the token
behind it ends at least the last operand of the phrase, then the rule of the phrase reads it. -/
theorem rule_of_derives {tokens : Array Token} {p : Phrase} {ts : List Token} {e : Expr} {d : Nat}
    (h : Derives p ts e d) : ∀ (t : Token) (rest : List Token), p.OperandStops t.kind →
      ∀ (room : Nat) (c : Cursor), c.ahead tokens = ts ++ t :: rest →
        Reads tokens room p e ts.length d c := by
  induction h with
  | number hv =>
      intro t rest _ room c hc
      exact reads_number hc hv
  | signed hsign _ ih =>
      intro t rest _ room c hc
      exact reads_signed hc hsign (ih t rest trivial)
  | @bracketed first last ts e d hf hl _ ih =>
      intro t rest _ room c hc
      have hstops : (Phrase.chain .expression).Stops last.kind := hl ▸ Phrase.stops_closing _
      exact reads_bracketed (by simpa using hc) hf hl (ih last (t :: rest) hstops.operandStops)
  | single _ ih =>
      intro t rest hs room c hc
      exact reads_single hc hs (ih t rest hs.operandStops room c hc)
  | @joined rank s op ls rs l r d d' hop _ _ ihl ihr =>
      intro t rest hs room c hc
      have hcl : c.ahead tokens = ls ++ s :: (rs ++ t :: rest) := by simpa using hc
      exact reads_joined hcl hop hs (ihl s _ (Phrase.operand_stops_of_joint hop) room c hcl)
        (ihr t rest hs.operandStops)

/-- A phrase that is read with room for `d` signs and brackets needs no more than these. -/
theorem Reads.depth_le {tokens : Array Token} {p : Phrase} {e e' : Expr} {ts rest : List Token}
    {t : Token} {d d' : Nat} {c : Cursor} (h : Reads tokens d p e ts.length d c)
    (h' : Reads tokens d p e' ts.length d' c) (ht : c.ahead tokens = ts ++ t :: rest)
    (hs : p.Stops t.kind) : d' ≤ d := by
  refine Nat.le_of_not_lt fun hlt => ?_
  obtain ⟨next, -, htree⟩ := h.tree_of_stops (Nat.le_refl _) ht hs
  obtain ⟨stop, hlapse⟩ := h'.tooDeep hlt
  simp [htree] at hlapse

/-- **The grammar is unambiguous**: a list of tokens makes a phrase in one way only. -/
theorem derives_unique {p : Phrase} {ts : List Token} {e e' : Expr} {d d' : Nat}
    (h : Derives p ts e d) (h' : Derives p ts e' d') : e = e' ∧ d = d' := by
  -- both derivations tell what the reader makes of the tokens with an end mark behind them
  let mark : Token := ⟨.ending, none, Position.start⟩
  let tokens : Array Token := (ts ++ [mark]).toArray
  have hstart : Cursor.start.ahead tokens = ts ++ [mark] := rfl
  have hstops : p.Stops mark.kind := p.stops_ending
  have hreads (room : Nat) : Reads tokens room p e ts.length d .start :=
    rule_of_derives h mark [] hstops.operandStops room _ hstart
  have hreads' (room : Nat) : Reads tokens room p e' ts.length d' .start :=
    rule_of_derives h' mark [] hstops.operandStops room _ hstart
  have hd : d = d' := Nat.le_antisymm
    ((hreads' d').depth_le (hreads d') hstart hstops)
    ((hreads d).depth_le (hreads' d) hstart hstops)
  subst hd
  obtain ⟨next, -, htree⟩ := (hreads d).tree_of_stops (Nat.le_refl _) hstart hstops
  obtain ⟨next', -, htree'⟩ := (hreads' d).tree_of_stops (Nat.le_refl _) hstart hstops
  rw [htree, Outcome.tree.injEq] at htree'
  exact ⟨htree'.1, rfl⟩

/-! ### From runs to derivations -/

/-- There is an end mark among the tokens that the reader has not passed. -/
def EndAhead (tokens : Array Token) (c : Cursor) : Prop :=
  ∃ t ∈ c.ahead tokens, t.kind = .ending

/-- How the outcome of a rule at `c`, reached behind `opened` signs and brackets that count against
the room, is related to the grammar.

A tree is that of a phrase, of which as much was read as can be.  Where an operand, a bracket or an
operation is missed, the tokens before that place leave something else due in whatever brackets the
phrase stands, and the token in that place is refused.  Where signs and brackets are open beyond
the limit, more tokens than there was room for may have opened them. -/
inductive Account (tokens : Array Token) (p : Phrase) (opened room : Nat) (c : Cursor) :
    Outcome → Prop
  | tree {ts rest : List Token} {e : Expr} {d : Nat} {next : Cursor}
      (ahead : c.ahead tokens = ts ++ rest) (derived : Derives p ts e d)
      (fits : opened + d ≤ room) (reached : Reaches c ts.length next)
      (stops : p.Stops (kindAt tokens next.index)) : Account tokens p opened room c (.tree e next)
  | refused {ts rest : List Token} {t : Token} {l : Lapse} {stop : Cursor}
      (ahead : c.ahead tokens = ts ++ t :: rest) (reached : Reaches c ts.length stop)
      (inside : l ≠ .operationDue)
      (due : ∀ n, ∃ q, (Phase.due n).after ts = some q ∧ q.next t = none ∧ q.lapse = l) :
      Account tokens p opened room c (.lapse l stop)
  | tooDeep {ts rest : List Token} {stop : Cursor}
      (ahead : c.ahead tokens = ts ++ rest) (reached : Reaches c ts.length stop)
      (exceeded : room < opened + openers ts) :
      Account tokens p opened room c (.lapse (.tooDeep (c.depth + room)) stop)

section EndAhead

variable {tokens : Array Token} {c next : Cursor} {p : Phrase} {t : Token} {ts rest : List Token}
  {e : Expr} {d : Nat}

/-- An end mark lies ahead of every cursor before it. -/
theorem EndAhead.of_reaches (h : EndAhead tokens c) (hc : c.ahead tokens = ts ++ rest)
    (hr : Reaches c ts.length next) (hts : ∀ t ∈ ts, t.kind ≠ .ending) : EndAhead tokens next := by
  obtain ⟨mark, hmem, hk⟩ := h
  rw [hc] at hmem
  rcases List.mem_append.1 hmem with hmem | hmem
  · exact absurd hk (hts mark hmem)
  · exact ⟨mark, by rwa [hr.ahead hc], hk⟩

theorem EndAhead.exists_cons (h : EndAhead tokens c) :
    ∃ t rest, c.ahead tokens = t :: rest := by
  obtain ⟨mark, hmem, -⟩ := h
  exact List.exists_cons_of_ne_nil (List.ne_nil_of_mem hmem)

/-- An end mark that is not the next token lies ahead of the cursor behind that token. -/
theorem EndAhead.of_reaches_one (h : EndAhead tokens c) (hc : c.ahead tokens = t :: rest)
    (hr : Reaches c 1 next) (hk : t.kind ≠ .ending) : EndAhead tokens next := by
  have hall : c.ahead tokens = [t] ++ rest := hc
  exact h.of_reaches hall hr (by simpa using hk)

end EndAhead

section Account

variable {tokens : Array Token} {room opened opened' : Nat} {p q : Phrase} {c mid stop : Cursor}
  {l : Lapse} {ts rest : List Token}

/-- A lapse met behind some tokens that leave an operand due is one of the phrase they begin. -/
theorem Account.of_later (h : Account tokens q opened' room mid (.lapse l stop))
    (hc : c.ahead tokens = ts ++ rest) (hr : Reaches c ts.length mid)
    (hdue : ∀ n, ∃ m, (Phase.due n).after ts = some (.due m))
    (ho : opened' ≤ opened + openers ts) : Account tokens p opened room c (.lapse l stop) := by
  have hrest := hr.ahead hc
  cases h with
  | @refused us rest' t _ _ ha hr' hl hd =>
      have hall : c.ahead tokens = (ts ++ us) ++ t :: rest' := by
        rw [hc, ← hrest, ha, List.append_assoc]
      refine .refused hall (hr.append hr') hl fun n => ?_
      obtain ⟨m, hm⟩ := hdue n
      obtain ⟨q, hq⟩ := hd m
      exact ⟨q, by simp [hm, hq.1], hq.2⟩
  | @tooDeep us rest' _ ha hr' hd =>
      have hall : c.ahead tokens = (ts ++ us) ++ rest' := by
        rw [hc, ← hrest, ha, List.append_assoc]
      rw [hr.depth]
      refine .tooDeep hall (hr.append hr') ?_
      rw [openers_append]
      omega

/-- An operand of which nothing is there. -/
theorem account_operandDue {t : Token} (hc : c.ahead tokens = t :: rest)
    (ht : ∀ n, (Phase.due n).next t = none) :
    Account tokens p opened room c (.lapse .operandDue c.offer) := by
  have hall : c.ahead tokens = [] ++ t :: rest := hc
  exact .refused hall ⟨rfl, rfl⟩ (by simp) fun n => ⟨.due n, rfl, ht n, rfl⟩

end Account

/-- A rule is accounted for wherever an end mark lies ahead. -/
def Accounted (tokens : Array Token) (p : Phrase) (opened room : Nat) (r : Rule) : Prop :=
  ∀ c, EndAhead tokens c → Account tokens p opened room c (r c)

section Accounted

variable {tokens : Array Token} {room : Nat} {p : Phrase} {rank : Rank}

/-- A sign or bracket takes away room for one. -/
theorem accounted_inside (h : ∀ r < room, Accounted tokens p 0 r (rule tokens r p)) :
    Accounted tokens p 1 room (inside tokens room p) := by
  intro c hend
  cases room with
  | zero =>
      -- no token need be passed to exceed a limit that allows nothing
      exact .tooDeep (List.nil_append _).symm (Reaches.refl c) (by simp)
  | succ room =>
      have hacc := h room (Nat.lt_succ_self room) c.inward hend
      cases ho : rule tokens room p c.inward with
      | tree e next =>
          rw [ho] at hacc
          cases hacc with
          | @tree ts rest _ d _ ha hd hf hr hs =>
              obtain ⟨next', hr', hn⟩ := inside_of_tree ho hr
              rw [hn]
              refine .tree ha hd (by omega) hr' ?_
              rwa [hr'.index, ← show c.inward.index = c.index from rfl, ← hr.index]
      | lapse l stop =>
          rw [ho] at hacc
          rw [inside_of_lapse ho]
          cases hacc with
          | refused ha hr hl hd =>
              have hdepth : stop.depth - 1 = c.depth := by simp [hr.depth, Cursor.inward]
              exact .refused ha ⟨hr.index, hdepth⟩ hl hd
          | tooDeep ha hr hd =>
              have hdepth : stop.depth - 1 = c.depth := by simp [hr.depth, Cursor.inward]
              have hlimit : c.inward.depth + room = c.depth + (room + 1) := by
                simp only [Cursor.inward]
                omega
              rw [hlimit]
              exact .tooDeep ha ⟨hr.index, hdepth⟩ (by omega)

/-- What follows the first token of an operand is accounted for where that token stands. -/
theorem Account.of_enter {q : Phrase} {c stop : Cursor} {t : Token} {rest : List Token} {l : Lapse}
    (h : Account tokens q 1 room (c.enter tokens) (.lapse l stop))
    (hc : c.ahead tokens = t :: rest) (hdue : ∀ n, ∃ m, (Phase.due n).next t = some (.due m))
    (hopen : mayOpen t = true) : Account tokens p 0 room c (.lapse l stop) := by
  have hall : c.ahead tokens = [t] ++ rest := hc
  refine h.of_later hall (reaches_enter hc) (fun n => ?_) ?_
  · obtain ⟨m, hm⟩ := hdue n
    exact ⟨m, by simp [hm]⟩
  · simp [openers_cons_of_mayOpen hopen]

/-- A sign with what follows it. -/
theorem account_sign {behindSign inBrackets : Rule} {c : Cursor} {t : Token} {rest : List Token}
    {sign : Sign} (hs : Accounted tokens .factor 1 room behindSign) (hend : EndAhead tokens c)
    (hc : c.ahead tokens = t :: rest) (hsign : t.kind.sign? = some sign) :
    Account tokens .factor 0 room c (primary tokens behindSign inBrackets c) := by
  have hk : t.kind ≠ .ending := by
    intro hk
    simp [hk, Kind.sign?] at hsign
  have hacc := hs (c.enter tokens) (hend.of_reaches_one hc (reaches_enter hc) hk)
  rw [primary_sign (tokenAt?_of_ahead hc) hsign]
  cases hr : behindSign (c.enter tokens) with
  | tree e next =>
      rw [hr] at hacc
      cases hacc with
      | @tree ts rest' _ d _ ha hd hf hreach _ =>
          have hall : c.ahead tokens = (t :: ts) ++ rest' := by
            rw [hc, ← ahead_enter hc, ha, List.cons_append]
          exact .tree hall (.signed hsign hd) (by omega) ((reaches_enter hc).cons hreach) trivial
  | lapse l stop =>
      rw [hr] at hacc
      exact hacc.of_enter hc (fun n => ⟨n, Phase.next_sign hsign n⟩) (by simp [mayOpen, hsign])

/-- A bracket with what follows it. -/
theorem account_opening {behindSign inBrackets : Rule} {c : Cursor} {t : Token}
    {rest : List Token} (hb : Accounted tokens (.chain .expression) 1 room inBrackets)
    (hend : EndAhead tokens c) (hc : c.ahead tokens = t :: rest) (ho : t.kind = .opening) :
    Account tokens .factor 0 room c (primary tokens behindSign inBrackets c) := by
  have hin : EndAhead tokens (c.enter tokens) :=
    hend.of_reaches_one hc (reaches_enter hc) (by simp [ho])
  have hacc := hb (c.enter tokens) hin
  rw [primary_opening (tokenAt?_of_ahead hc) ho]
  cases hr : inBrackets (c.enter tokens) with
  | tree e next =>
      rw [hr] at hacc
      cases hacc with
      | @tree ts rest' _ d _ ha hd hf hreach hstops =>
          obtain ⟨t', rest'', hnext⟩ := (hin.of_reaches ha hreach hd.kind_ne_ending).exists_cons
          have hkind := kindAt_of_ahead hnext
          have hall : c.ahead tokens = (t :: ts) ++ t' :: rest'' := by
            rw [hc, ← ahead_enter hc, ha, ← hreach.ahead ha, hnext, List.cons_append]
          -- the expression inside has stopped, so the next token can only close the bracket
          by_cases hclose : t'.kind = .closing
          · simp only [hkind, hclose, if_true]
            have hall' : c.ahead tokens = (t :: (ts ++ [t'])) ++ rest'' := by simp [hall]
            exact .tree hall' (.bracketed ho hclose hd) (by omega)
              ((reaches_enter hc).cons (hreach.concat (reaches_advance hnext))) trivial
          · simp only [hkind, hclose, if_false]
            refine .refused hall ((reaches_enter hc).cons hreach) (by simp)
              fun n => ⟨.complete (n + 1), ?_, ?_, rfl⟩
            · simp [Phase.next_opening ho, hd.after_due]
            · exact Phase.next_complete_eq_none (hkind ▸ hstops) fun h => absurd h hclose
  | lapse l stop =>
      rw [hr] at hacc
      exact hacc.of_enter hc (fun n => ⟨n + 1, Phase.next_opening ho n⟩) (by simp [mayOpen, ho])

theorem accounted_primary {behindSign inBrackets : Rule}
    (hs : Accounted tokens .factor 1 room behindSign)
    (hb : Accounted tokens (.chain .expression) 1 room inBrackets) :
    Accounted tokens .factor 0 room (primary tokens behindSign inBrackets) := by
  intro c hend
  obtain ⟨t, rest, hc⟩ := hend.exists_cons
  rcases Phase.next_due_cases t with ⟨value, hv⟩ | ⟨sign, hsign⟩ | ho | hn
  · have hall : c.ahead tokens = [t] ++ rest := hc
    rw [primary_number (tokenAt?_of_ahead hc) hv]
    exact .tree hall (.number hv) (by omega) (reaches_enter hc) trivial
  · exact account_sign hs hend hc hsign
  · exact account_opening hb hend hc ho
  · rw [primary_other (tokenAt?_of_ahead hc) (hn 0)]
    exact account_operandDue hc hn

/-- The rest of a chain is accounted for where the chain begins. -/
theorem account_resume (hop : Accounted tokens rank.operand 0 room (rule tokens room rank.operand))
    {start : Cursor} : ∀ (n : Nat) {c : Cursor} {ts rest : List Token} {l : Expr} {d : Nat},
    tokens.size - c.index = n → EndAhead tokens c → start.ahead tokens = ts ++ rest →
    Derives (.chain rank) ts l d → d ≤ room → Reaches start ts.length c →
    rank.operand.Stops (kindAt tokens c.index) →
    Account tokens (.chain rank) 0 room start (resume tokens room (.chain rank) l c) := by
  -- every operation passes a token, so that the tokens left bound the length of the chain
  intro n
  induction n using Nat.strongRecOn with
  | _ n ih =>
      intro c ts rest l d hn hend hstart hd hf hreach hstops
      obtain ⟨t, rest', hc⟩ := hend.exists_cons
      have hkind := kindAt_of_ahead hc
      have hts : start.ahead tokens = (ts ++ [t]) ++ rest' := by
        rw [hstart, ← hreach.ahead hstart, hc]
        simp
      cases hj : rank.joint? t.kind with
      | none =>
          have hs : (Phrase.chain rank).Stops (kindAt tokens c.index) :=
            Phrase.stops_chain_iff.2 ⟨hkind ▸ hj, hstops⟩
          rw [resume_of_stops hs]
          exact .tree hstart hd (by omega) hreach hs
      | some op =>
          -- the operation leaves an operand due, which is what the next operand is accounted for by
          have hpast := reaches_advance hc
          have hin : EndAhead tokens (c.advance tokens) :=
            hend.of_reaches_one hc hpast (Rank.kind_ne_ending_of_joint hj)
          have hacc := hop (c.advance tokens) hin
          cases ho : rule tokens room rank.operand (c.advance tokens) with
          | lapse l' stop =>
              rw [ho] at hacc
              rw [resume_chain_of_lapse hc hj ho]
              refine hacc.of_later hts (hreach.concat hpast) (fun n => ⟨n, ?_⟩) (Nat.zero_le _)
              simp [hd.after_due, Phase.next_joint hj]
          | tree r next =>
              rw [ho] at hacc
              cases hacc with
              | @tree us rest'' _ d' _ ha hd' hf' hreach' hstops' =>
                  have hmoved : c.index < next.index := by
                    rw [hreach'.index, hpast.index]
                    omega
                  rw [resume_chain_of_operand hc hj ho hmoved]
                  have hall : start.ahead tokens = (ts ++ t :: us) ++ rest'' := by
                    rw [hts, ← ahead_advance hc, ha]
                    simp
                  have hlt := index_lt_of_ahead hc
                  exact ih _ (by omega) rfl (hin.of_reaches ha hreach' hd'.kind_ne_ending) hall
                    (.joined hj hd hd') (by omega) (hreach.append (hpast.cons hreach')) hstops'

theorem accounted_chain
    (hop : Accounted tokens rank.operand 0 room (rule tokens room rank.operand)) :
    Accounted tokens (.chain rank) 0 room (rule tokens room (.chain rank)) := by
  intro c hend
  have hacc := hop c hend
  cases ho : rule tokens room rank.operand c with
  | lapse l stop =>
      rw [ho] at hacc
      rw [rule_chain_of_lapse ho]
      exact hacc.of_later (List.nil_append _).symm (Reaches.refl c) (fun n => ⟨n, rfl⟩)
        (Nat.zero_le _)
  | tree e next =>
      rw [ho] at hacc
      cases hacc with
      | @tree ts rest _ d _ ha hd hf hreach hstops =>
          have hrule := rule_chain_of_operand (ho.trans (resume_of_stops hstops).symm) hstops
          rw [hrule]
          exact account_resume hop _ rfl (hend.of_reaches ha hreach hd.kind_ne_ending) ha
            (.single hd) (by omega) hreach hstops

end Accounted

/-- **Nothing else is read**: the rules are accounted for. -/
theorem rule_account (tokens : Array Token) (p : Phrase) (room : Nat) :
    Accounted tokens p 0 room (rule tokens room p) := by
  have hfactor : ∀ room, Accounted tokens .factor 0 room (rule tokens room .factor) := by
    intro room
    -- what stands behind a sign or in brackets is read with less room
    induction room using Nat.strongRecOn with
    | _ room ih =>
        have hterm (r : Nat) (hr : r < room) :
            Accounted tokens (.chain .term) 0 r (rule tokens r (.chain .term)) :=
          accounted_chain (ih r hr)
        have hexpression (r : Nat) (hr : r < room) :
            Accounted tokens (.chain .expression) 0 r (rule tokens r (.chain .expression)) :=
          accounted_chain (hterm r hr)
        rw [factor_eq]
        exact accounted_primary (accounted_inside ih) (accounted_inside hexpression)
  match p with
  | .factor => exact hfactor room
  | .chain .term => exact accounted_chain (hfactor room)
  | .chain .expression => exact accounted_chain (accounted_chain (hfactor room))

/-! ### Whole token arrays -/

section Whole

variable {tokens : Array Token} {limit : Nat} {e : Expr} {l : Lapse} {next stop : Cursor}

theorem whole_eq_tree_iff : whole tokens limit = .tree e next ↔
    rule tokens limit (.chain .expression) .start = .tree e next ∧
      kindAt tokens next.index = .ending := by
  simp only [whole, rule]
  cases expression tokens limit .start with
  | lapse l stop => simp
  | tree e' next' =>
      by_cases hk : kindAt tokens next'.index = .ending
      · simp only [hk, if_true, Outcome.tree.injEq]
        constructor
        · rintro ⟨rfl, rfl⟩
          exact ⟨⟨rfl, rfl⟩, hk⟩
        · exact And.left
      · simp only [hk, if_false, Outcome.tree.injEq, reduceCtorEq, false_iff]
        rintro ⟨⟨-, rfl⟩, hk'⟩
        exact hk hk'

theorem whole_eq_lapse_iff : whole tokens limit = .lapse l stop ↔
    rule tokens limit (.chain .expression) .start = .lapse l stop ∨
      (∃ e, rule tokens limit (.chain .expression) .start = .tree e stop) ∧
        kindAt tokens stop.index ≠ .ending ∧ l = .operationDue := by
  simp only [whole, rule]
  cases expression tokens limit .start with
  | lapse l' stop' => simp
  | tree e' next' =>
      by_cases hk : kindAt tokens next'.index = .ending
      · simp only [hk, if_true, reduceCtorEq, Outcome.tree.injEq, exists_eq_left', false_or,
          false_iff]
        rintro ⟨⟨e, -, rfl⟩, hk', -⟩
        exact hk' hk
      · simp only [hk, if_false, Outcome.lapse.injEq, reduceCtorEq, Outcome.tree.injEq,
          exists_eq_left', false_or]
        constructor
        · rintro ⟨rfl, rfl⟩
          exact ⟨rfl, hk, rfl⟩
        · rintro ⟨rfl, -, rfl⟩
          exact ⟨rfl, rfl⟩

/-- Of no tokens at all nothing is read. -/
theorem rule_empty (p : Phrase) : rule #[] limit p .start = .lapse .operandDue .start := by
  have hfactor : rule #[] limit .factor .start = .lapse .operandDue .start := by
    rw [factor_eq]
    rfl
  match p with
  | .factor => exact hfactor
  | .chain .term => exact rule_chain_of_lapse hfactor
  | .chain .expression =>
      have hterm : rule #[] limit (.chain .term) .start = .lapse .operandDue .start :=
        rule_chain_of_lapse hfactor
      exact rule_chain_of_lapse hterm

/-- The reader sees no other tokens than there are. -/
theorem mem_of_tokenAt? {i : Nat} {t : Token} (h : tokenAt? tokens i = some t) :
    t ∈ tokens.toList := by
  rw [tokenAt?, Option.or_eq_some_iff] at h
  rcases h with h | ⟨-, h⟩
  · exact Array.mem_toList_iff.2 (Array.mem_of_getElem? h)
  · exact Array.mem_toList_iff.2 (Array.mem_of_back? h)

/-- It sees one wherever it stands, if there are any. -/
theorem eq_empty_of_tokenAt? {i : Nat} (h : tokenAt? tokens i = none) : tokens = #[] := by
  rw [tokenAt?, Option.or_eq_none_iff] at h
  exact Array.back?_eq_none_iff.1 h.2

/-- A tree is read only where there is an end mark behind it. -/
theorem exists_ending_of_whole (h : whole tokens limit = .tree e next) :
    ∃ t ∈ tokens.toList, t.kind = .ending := by
  obtain ⟨hrule, hk⟩ := whole_eq_tree_iff.1 h
  cases ht : tokenAt? tokens next.index with
  | none =>
      obtain rfl := eq_empty_of_tokenAt? ht
      rw [rule_empty] at hrule
      cases hrule
  | some t =>
      refine ⟨t, mem_of_tokenAt? ht, ?_⟩
      rwa [kindAt, ht] at hk

/-- What is read as a tree is an expression up to the first end mark. -/
theorem derives_of_whole (h : whole tokens limit = .tree e next) :
    ∃ d ≤ limit, Derives (.chain .expression) (beforeEnd tokens.toList) e d := by
  obtain ⟨hrule, hk⟩ := whole_eq_tree_iff.1 h
  have hend : EndAhead tokens .start := exists_ending_of_whole h
  have hacc := rule_account tokens (.chain .expression) limit .start hend
  rw [hrule] at hacc
  cases hacc with
  | @tree ts rest _ d _ ha hd hf hr _ =>
      obtain ⟨mark, rest', hm⟩ := (hend.of_reaches ha hr hd.kind_ne_ending).exists_cons
      rw [kindAt_of_ahead hm] at hk
      have hall : tokens.toList = ts ++ mark :: rest' := by
        rw [← hm, hr.ahead ha]
        exact ha
      refine ⟨d, by omega, ?_⟩
      rwa [hall, beforeEnd_append_cons hd.kind_ne_ending hk]

/-- An expression up to the first end mark is read, if there is room for its depth. -/
theorem whole_of_derives {d : Nat} (hend : ∃ t ∈ tokens.toList, t.kind = .ending)
    (h : Derives (.chain .expression) (beforeEnd tokens.toList) e d) (hd : d ≤ limit) :
    ∃ next, whole tokens limit = .tree e next := by
  obtain ⟨mark, rest, hall, hm⟩ := exists_mark_of_mem hend
  have hstart : Cursor.start.ahead tokens = beforeEnd tokens.toList ++ mark :: rest := hall
  have hstops : (Phrase.chain .expression).Stops mark.kind := hm ▸ Phrase.stops_ending _
  have hreads := rule_of_derives h mark rest hstops.operandStops limit .start hstart
  obtain ⟨next, hr, hn⟩ := hreads.tree_of_stops hd hstart hstops
  refine ⟨next, whole_eq_tree_iff.2 ⟨hn, ?_⟩⟩
  rw [kindAt_of_ahead (hr.ahead hstart), hm]

/-- An expression up to the first end mark that there is no room for is found to be too deep. -/
theorem whole_tooDeep_of_derives {d : Nat} (hend : ∃ t ∈ tokens.toList, t.kind = .ending)
    (h : Derives (.chain .expression) (beforeEnd tokens.toList) e d) (hd : limit < d) :
    ∃ stop, whole tokens limit = .lapse (.tooDeep limit) stop := by
  obtain ⟨mark, rest, hall, hm⟩ := exists_mark_of_mem hend
  have hstops : (Phrase.chain .expression).Stops mark.kind := hm ▸ Phrase.stops_ending _
  have hreads := rule_of_derives h mark rest hstops.operandStops limit .start hall
  obtain ⟨stop, hn⟩ := hreads.tooDeep hd
  refine ⟨stop, whole_eq_lapse_iff.2 (Or.inl ?_)⟩
  rw [hn, Cursor.start, Nat.zero_add]

end Whole

section OfTokens

variable {source : String} {limit : Nat} {tokens : Array Token} {e : Expr} {fault : Fault}

theorem ofTokens_eq_ok_iff : (ofTokens source limit tokens).value = .ok e ↔
    ∃ next, whole tokens limit = .tree e next := by
  rw [ofTokens]
  cases whole tokens limit <;> simp

theorem ofTokens_eq_error_iff : (ofTokens source limit tokens).value = .error fault ↔
    ∃ l stop, whole tokens limit = .lapse l stop ∧
      fault = ⟨.ungrammatical l, source, positionAt tokens stop.index⟩ := by
  rw [ofTokens]
  cases whole tokens limit with
  | tree e next => simp
  | lapse l stop =>
      simp only [Except.error.injEq, Outcome.lapse.injEq]
      constructor
      · rintro rfl
        exact ⟨l, stop, ⟨rfl, rfl⟩, rfl⟩
      · rintro ⟨_, _, ⟨rfl, rfl⟩, rfl⟩
        rfl

/-- Reading succeeds on the expressions of the grammar that keep to the limit. -/
theorem ofTokens_eq_ok_iff_derives : (ofTokens source limit tokens).value = .ok e ↔
    (∃ t ∈ tokens.toList, t.kind = .ending) ∧
      ∃ d ≤ limit, Derives (.chain .expression) (beforeEnd tokens.toList) e d := by
  rw [ofTokens_eq_ok_iff]
  constructor
  · rintro ⟨next, h⟩
    exact ⟨exists_ending_of_whole h, derives_of_whole h⟩
  · rintro ⟨hend, d, hd, h⟩
    exact whole_of_derives hend h hd

end OfTokens

/-- **The reader accepts the grammar and builds its tree.**  A token array is read, with a limit on
the signs and brackets open at once, as the tree `e` exactly if there is an end mark in it and the
tokens before the first one derive `e` within that limit; and no tokens derive two trees. -/
theorem ofTokens_follows_grammar (source : String) (limit : Nat) (tokens : Array Token) :
    (∀ e, (ofTokens source limit tokens).value = .ok e ↔
      (∃ t ∈ tokens.toList, t.kind = .ending) ∧
        ∃ d ≤ limit, Derives (.chain .expression) (beforeEnd tokens.toList) e d) ∧
    ∀ e e' d d', Derives (.chain .expression) (beforeEnd tokens.toList) e d →
      Derives (.chain .expression) (beforeEnd tokens.toList) e' d' → e = e' ∧ d = d' :=
  ⟨fun _ => ofTokens_eq_ok_iff_derives, fun _ _ _ _ => derives_unique⟩

end Reckoner.Expr
