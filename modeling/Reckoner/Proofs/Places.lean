/-
**Places do not matter.**

Tokens carry the places they were cut from, and trees carry the places of their tokens.  These are
there for reports of faults and for nothing else: reading tokens whose places are forgotten gives
the same tree with its places forgotten, or the same lapse at the same token, and evaluation does
not look at places at all.  So two arrays of tokens that differ in places only are read alike, and
what is read from them has the same value.

Main definitions:

* `Reckoner.Token.unplaced`, `Reckoner.Expr.unplaced`, `Reckoner.Expr.Outcome.unplaced` — tokens,
  trees and outcomes of reading with their places forgotten;
* `Reckoner.Expr.Unplaces` — two rules that differ in places only.

Main results:

* `Reckoner.Expr.whole_unplaced` — **reading does not look at places**;
* `Reckoner.Expr.evaluate_of_unplaced` — neither does evaluation.
-/

import Reckoner.Proofs.Evaluation
import Reckoner.Proofs.Reading

set_option relaxedAutoImplicit false
set_option autoImplicit false

namespace Reckoner

/-- The token with its place forgotten. -/
def Token.unplaced (t : Token) : Token := { t with position := Position.start }

namespace Expr

/-- The tree with every place forgotten. -/
def unplaced : Expr → Expr
  | literal value _ => literal value Position.start
  | signed sign operand _ => signed sign operand.unplaced Position.start
  | joined op left right _ => joined op left.unplaced right.unplaced Position.start

/-- What reading comes to, with the places in the tree forgotten. -/
def Outcome.unplaced : Outcome → Outcome
  | tree e next => tree e.unplaced next
  | lapse l stop => lapse l stop

/-! ### Tokens under the cursor -/

section Tokens

variable (tokens : Array Token) (i : Nat) (c : Cursor)

@[simp] theorem tokenAt?_unplaced :
    tokenAt? (tokens.map Token.unplaced) i = (tokenAt? tokens i).map Token.unplaced := by
  simp only [tokenAt?, Array.getElem?_map, Array.back?_map]
  cases tokens[i]? <;> rfl

@[simp] theorem kindAt_unplaced : kindAt (tokens.map Token.unplaced) i = kindAt tokens i := by
  simp only [kindAt, tokenAt?_unplaced]
  cases tokenAt? tokens i <;> rfl

@[simp] theorem positionAt_unplaced :
    positionAt (tokens.map Token.unplaced) i = Position.start := by
  simp only [positionAt, tokenAt?_unplaced]
  cases tokenAt? tokens i <;> rfl

@[simp] theorem advance_unplaced :
    c.advance (tokens.map Token.unplaced) = c.advance tokens := by
  simp only [Cursor.advance, Array.size_map]

end Tokens

/-! ### Rules from rules -/

/-- The rule `r'` comes to what `r` comes to, with places forgotten. -/
def Unplaces (r r' : Rule) : Prop := ∀ c, r' c = (r c).unplaced

section Rules

variable {tokens : Array Token} {joint? : Kind → Option Operation} {operand operand' : Rule}

theorem chainFrom_unplaced (h : Unplaces operand operand') (left : Expr) (c : Cursor) :
    chainFrom (tokens.map Token.unplaced) joint? operand' left.unplaced c =
      (chainFrom tokens joint? operand left c).unplaced := by
  induction left, c using chainFrom.induct tokens joint? operand with
  | case1 left c hj =>
      rw [chainFrom, chainFrom, kindAt_unplaced, hj]
      rfl
  | case2 left c op hj lapse stop ho =>
      have ho' := h (c.advance tokens)
      rw [ho] at ho'
      rw [chainFrom, chainFrom, kindAt_unplaced, hj]
      simp only [advance_unplaced, ho, ho', Outcome.unplaced]
  | case3 left c op hj right next ho both hmoved ih =>
      have ho' := h (c.advance tokens)
      rw [ho] at ho'
      rw [chainFrom, chainFrom, kindAt_unplaced, hj]
      simp only [advance_unplaced, ho, ho', Outcome.unplaced, Array.size_map, dif_pos hmoved,
        positionAt_unplaced]
      exact ih
  | case4 left c op hj right next ho hmoved =>
      have ho' := h (c.advance tokens)
      rw [ho] at ho'
      rw [chainFrom, chainFrom, kindAt_unplaced, hj]
      simp only [advance_unplaced, ho, ho', Outcome.unplaced, Array.size_map, dif_neg hmoved,
        positionAt_unplaced]
      rfl

theorem chain_unplaced (h : Unplaces operand operand') :
    Unplaces (chain tokens joint? operand) (chain (tokens.map Token.unplaced) joint? operand') := by
  intro c
  have ho' := h c
  cases ho : operand c with
  | lapse l stop =>
      rw [ho] at ho'
      simp only [chain, ho, ho', Outcome.unplaced]
  | tree left next =>
      rw [ho] at ho'
      simp only [chain, ho, ho', Outcome.unplaced]
      exact chainFrom_unplaced h left next

theorem sum_unplaced (h : Unplaces operand operand') :
    Unplaces (sum tokens operand) (sum (tokens.map Token.unplaced) operand') :=
  chain_unplaced (chain_unplaced h)

theorem deeper_unplaced (h : Unplaces operand operand') :
    Unplaces (deeper operand) (deeper operand') := by
  intro c
  simp only [deeper, h _]
  cases operand { c with depth := c.depth + 1 } <;> rfl

theorem barred_unplaced : Unplaces barred barred := fun _ => rfl

theorem primary_unplaced {behindSign behindSign' inBrackets inBrackets' : Rule}
    (hs : Unplaces behindSign behindSign') (hb : Unplaces inBrackets inBrackets') :
    Unplaces (primary tokens behindSign inBrackets)
      (primary (tokens.map Token.unplaced) behindSign' inBrackets') := by
  intro c
  simp only [primary, tokenAt?_unplaced]
  cases tokenAt? tokens c.index with
  | none => rfl
  | some t =>
      obtain ⟨kind, value, position⟩ := t
      simp only [Option.map_some, Token.unplaced, advance_unplaced, kindAt_unplaced, hs _, hb _]
      -- all that is decided is decided by the kind and the number of the token
      cases hsign : kind.sign? with
      | some sign => cases behindSign (c.offer.advance tokens) <;> rfl
      | none =>
          by_cases ho : kind = .opening
          · subst ho
            cases inBrackets (c.offer.advance tokens) with
            | lapse l stop => cases value <;> rfl
            | tree inner next =>
                cases value <;> simp only [Outcome.unplaced] <;> split <;> rfl
          · cases kind <;> cases value <;> first | rfl | exact absurd rfl ho

theorem factor_unplaced (room : Nat) :
    Unplaces (factor tokens room) (factor (tokens.map Token.unplaced) room) := by
  induction room with
  | zero =>
      intro c
      rw [factor, factor]
      exact primary_unplaced barred_unplaced barred_unplaced c
  | succ room ih =>
      intro c
      rw [factor, factor]
      exact primary_unplaced (deeper_unplaced ih) (deeper_unplaced (sum_unplaced ih)) c

end Rules

/-- **Reading does not look at places.** -/
theorem whole_unplaced (tokens : Array Token) (limit : Nat) :
    whole (tokens.map Token.unplaced) limit = (whole tokens limit).unplaced := by
  have hread : sum (tokens.map Token.unplaced) (factor (tokens.map Token.unplaced) limit) .start =
      (sum tokens (factor tokens limit) .start).unplaced := sum_unplaced (factor_unplaced limit) _
  simp only [whole, expression, hread]
  cases sum tokens (factor tokens limit) .start with
  | lapse l stop => rfl
  | tree e next =>
      simp only [Outcome.unplaced, kindAt_unplaced]
      split <;> rfl

/-! ### Tokens that differ in places only -/

section Alike

variable {tokens tokens' : Array Token} {source : String} {limit : Nat} {e : Expr} {fault : Fault}

theorem whole_alike (h : tokens'.map Token.unplaced = tokens.map Token.unplaced) (limit : Nat) :
    (whole tokens' limit).unplaced = (whole tokens limit).unplaced := by
  rw [← whole_unplaced, ← whole_unplaced, h]

/-- Tokens that differ in places only are read as trees that differ in places only. -/
theorem ofTokens_ok_alike (h : tokens'.map Token.unplaced = tokens.map Token.unplaced)
    (he : (ofTokens source limit tokens).value = .ok e) :
    ∃ e', (ofTokens source limit tokens').value = .ok e' ∧ e'.unplaced = e.unplaced := by
  obtain ⟨next, hw⟩ := ofTokens_eq_ok_iff.1 he
  have halike := whole_alike h limit
  rw [hw] at halike
  cases hw' : whole tokens' limit with
  | lapse l stop => rw [hw'] at halike; cases halike
  | tree e' next' =>
      rw [hw', Outcome.unplaced, Outcome.unplaced, Outcome.tree.injEq] at halike
      exact ⟨e', ofTokens_eq_ok_iff.2 ⟨next', hw'⟩, halike.1⟩

/-- The token that a reader sees, counted from the first one. -/
theorem tokenAt?_eq_getElem? (tokens : Array Token) (i : Nat) :
    tokenAt? tokens i = tokens[min i (tokens.size - 1)]? := by
  by_cases hi : i < tokens.size
  · rw [tokenAt?, Nat.min_eq_left (by omega), Array.getElem?_eq_getElem hi, Option.some_or]
  · rw [tokenAt?, Nat.min_eq_right (by omega), Array.getElem?_eq_none (by omega), Option.none_or,
      Array.back?]

/-- Tokens that differ in places only have the same lapse at corresponding tokens. -/
theorem ofTokens_error_alike (h : tokens'.map Token.unplaced = tokens.map Token.unplaced)
    (hne : tokens ≠ #[]) (hfault : (ofTokens source limit tokens).value = .error fault) :
    ∃ (k : Nat) (t t' : Token), tokens[k]? = some t ∧ tokens'[k]? = some t' ∧
      fault.position = t.position ∧
      (ofTokens source limit tokens').value = .error { fault with position := t'.position } := by
  obtain ⟨l, stop, hw, rfl⟩ := ofTokens_eq_error_iff.1 hfault
  have halike := whole_alike h limit
  have hsize : tokens'.size = tokens.size := by
    rw [← Array.size_map, h, Array.size_map]
  have hpos : 0 < tokens.size := Array.size_pos_iff.2 hne
  rw [hw] at halike
  cases hw' : whole tokens' limit with
  | tree e' next' => rw [hw'] at halike; cases halike
  | lapse l' stop' =>
      rw [hw', Outcome.unplaced, Outcome.unplaced, Outcome.lapse.injEq] at halike
      obtain ⟨rfl, rfl⟩ := halike
      -- both readers stop at the same place, behind the end they both look at the last token
      have hk : min stop'.index (tokens.size - 1) < tokens.size := by omega
      have hk' : min stop'.index (tokens.size - 1) < tokens'.size := by omega
      refine ⟨min stop'.index (tokens.size - 1), _, _, Array.getElem?_eq_getElem hk,
        Array.getElem?_eq_getElem hk', ?_, ofTokens_eq_error_iff.2 ⟨l', stop', hw', ?_⟩⟩
      · simp only [positionAt, tokenAt?_eq_getElem?, Array.getElem?_eq_getElem hk]
      · simp only [positionAt, tokenAt?_eq_getElem?, hsize, Array.getElem?_eq_getElem hk']

end Alike

/-! ### Values -/

/-- Places do not matter to evaluation. -/
theorem evaluateThen_unplaced (e : Expr) :
    ∀ (pending : List (Progress → Progress)) (events : List Event),
      e.unplaced.evaluateThen pending events = e.evaluateThen pending events := by
  induction e with
  | literal value p =>
      intro pending events
      rfl
  | signed sign operand p ih =>
      intro pending events
      simp only [unplaced, evaluateThen, ih]
  | joined op left right p ihl ihr =>
      intro pending events
      simp only [unplaced, evaluateThen, ihl, ihr]

theorem evaluate_of_unplaced {e e' : Expr} (h : e'.unplaced = e.unplaced) :
    e'.evaluate = e.evaluate := by
  simp only [evaluate, ← evaluateThen_unplaced e', ← evaluateThen_unplaced e, h]

end Expr

end Reckoner
