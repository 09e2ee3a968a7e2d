/-
**The reader on any tokens.**

An array of tokens made by hand need not be one that a text gave: it may be empty, lack an end mark,
go on behind one, or hold literals without a number.  This module shows what can be relied on all
the same.  No rule moves the cursor back or out of the tokens, none forgets a sign or bracket that
it has opened, and each ends with a tree or with one of few lapses; every round of a chain passes a
token, so that chains end.

The awkward place is behind the last token, which is seen again and again there.  A number that is
held makes any number of operands.  But an operation that is held makes none: as a sign it is
followed by itself until the limit on nesting is reached, and otherwise it begins no operand.  That
is why a chain does not go on for ever with it.

With an end mark among the tokens this place is never reached, and what follows the mark is never
looked at.

Main definitions:

* `Reckoner.Lapse.IsOfReader` — the lapses of a reader with a given limit;
* `Reckoner.Expr.Passes` — the reader has moved on from one cursor to another;
* `Reckoner.Expr.Orderly` — what a rule may come to.

Main results:

* `Reckoner.Expr.rule_orderly` — **every rule is orderly, on any tokens**;
* `Reckoner.Expr.passes_of_joint` — every round of a chain passes a token;
* `Reckoner.Expr.ofTokens_append` — nothing behind an end mark is looked at;
* `Reckoner.Expr.ofTokens_safe` — **what reading comes to on any tokens**.
-/

import Reckoner.Proofs.Threshold

set_option relaxedAutoImplicit false
set_option autoImplicit false

namespace Reckoner

open Grammar

/-! ### Wordings -/

/-- A text begins as its first part does. -/
theorem head?_toList_append {s : String} {c : Char} (h : s.toList.head? = some c) (t : String) :
    (s ++ t).toList.head? = some c := by
  rw [String.toList_append, List.head?_append, h]
  rfl

theorem head?_complaint (n : NotOperator) : n.message.toList.head? = some 'U' := by
  cases n <;> exact head?_toList_append (by decide) _

theorem head?_tooDeep (limit : Nat) : (Lapse.tooDeep limit).message.toList.head? = some 'm' := by
  have hparts : (Lapse.tooDeep limit).message =
      "maximum nesting depth of " ++ (toString limit ++ " exceeded") := String.append_assoc
  rw [hparts]
  exact head?_toList_append (by decide) _

/-- The lapses of a reader with this limit. -/
def Lapse.IsOfReader (limit : Nat) (l : Lapse) : Prop :=
  l = .operandDue ∨ l = .closingDue ∨ l = .operationDue ∨ l = .tooDeep limit

theorem Lapse.IsOfReader.message_mem {limit : Nat} {l : Lapse} (h : l.IsOfReader limit) :
    l.message ∈ ["expected int or float", "expected ')'", "expected '+', '-', '*', or '/'",
      "maximum nesting depth of " ++ toString limit ++ " exceeded"] := by
  rcases h with rfl | rfl | rfl | rfl
  · exact .head _
  · exact .tail _ (.head _)
  · exact .tail _ (.tail _ (.head _))
  · exact .tail _ (.tail _ (.tail _ (.head _)))

/-- None of them complains of a kind that is no operator. -/
theorem Lapse.IsOfReader.message_ne {limit : Nat} {l : Lapse} (h : l.IsOfReader limit)
    (n : NotOperator) : l.message ≠ n.message := by
  intro hsame
  have hhead := head?_complaint n
  rw [← hsame] at hhead
  rcases h with rfl | rfl | rfl | rfl
  · exact absurd hhead (by decide)
  · exact absurd hhead (by decide)
  · exact absurd hhead (by decide)
  · rw [head?_tooDeep] at hhead
    exact absurd hhead (by decide)

namespace Expr

/-! ### Cursors that move on -/

/-- From `c` the reader has moved on to `next`: not back, not out of the tokens, and with as many
signs and brackets open as before. -/
structure Passes (tokens : Array Token) (c next : Cursor) : Prop where
  depth : next.depth = c.depth
  onward : c.index ≤ next.index
  inside : next.index ≤ max c.index tokens.size

section Passes

variable {tokens : Array Token} {a b c next : Cursor}

theorem Passes.refl (tokens : Array Token) (c : Cursor) : Passes tokens c c :=
  ⟨rfl, Nat.le_refl _, Nat.le_max_left _ _⟩

theorem Passes.trans (h₁ : Passes tokens a b) (h₂ : Passes tokens b c) : Passes tokens a c where
  depth := h₂.depth.trans h₁.depth
  onward := Nat.le_trans h₁.onward h₂.onward
  inside := by
    have hb := h₁.inside
    have hc := h₂.inside
    omega

theorem passes_advance (tokens : Array Token) (c : Cursor) :
    Passes tokens c (c.advance tokens) := by
  rw [Cursor.advance]
  split_ifs with h
  · exact ⟨rfl, Nat.le_succ _, Nat.le_trans h (Nat.le_max_right _ _)⟩
  · exact .refl tokens c

theorem passes_enter (tokens : Array Token) (c : Cursor) : Passes tokens c (c.enter tokens) := by
  have h := passes_advance tokens c.offer
  exact ⟨h.depth, h.onward, h.inside⟩

theorem index_advance_of_lt (h : c.index < tokens.size) :
    (c.advance tokens).index = c.index + 1 := by
  rw [Cursor.advance, if_pos h]

theorem index_enter_of_lt (h : c.index < tokens.size) : (c.enter tokens).index = c.index + 1 :=
  index_advance_of_lt (c := c.offer) h

/-- Behind the last token there is nothing to pass. -/
theorem advance_of_le (h : tokens.size ≤ c.index) : c.advance tokens = c := by
  rw [Cursor.advance, if_neg (Nat.not_lt.2 h)]

end Passes

/-! ### Orderly rules -/

/-- What a rule may come to at `c`: a tree, with a token passed unless there is none left, or one of
three lapses. -/
inductive Orderly (tokens : Array Token) (limit : Nat) (c : Cursor) : Outcome → Prop
  | tree {e : Expr} {next : Cursor} (passes : Passes tokens c next)
      (moved : c.index < tokens.size → c.index < next.index) :
      Orderly tokens limit c (.tree e next)
  | lapse {l : Lapse} {stop : Cursor} (passes : Passes tokens c stop)
      (known : l = .operandDue ∨ l = .closingDue ∨ l = .tooDeep limit) :
      Orderly tokens limit c (.lapse l stop)

/-- The rule is orderly wherever there is `room` for more signs and brackets up to the limit. -/
def OrderlyRule (tokens : Array Token) (room : Nat) (r : Rule) : Prop :=
  ∀ c, Orderly tokens (c.depth + room) c (r c)

section Orderly

variable {tokens : Array Token} {limit room : Nat} {p : Phrase} {rank : Rank} {c mid : Cursor}
  {next stop : Cursor} {e : Expr} {l : Lapse}

theorem Orderly.passes (h : Orderly tokens limit c (.tree e next)) : Passes tokens c next := by
  cases h with
  | tree passes _ => exact passes

/-- A lapse that is orderly later on is orderly from the beginning. -/
theorem Orderly.of_later (h : Orderly tokens limit mid (.lapse l stop))
    (hm : Passes tokens c mid) : Orderly tokens limit c (.lapse l stop) := by
  cases h with
  | lapse passes known => exact .lapse (hm.trans passes) known

/-- A tree is orderly if it begins with a token that is passed. -/
theorem orderly_of_enter (h : Passes tokens (c.enter tokens) next) :
    Orderly tokens limit c (.tree e next) := by
  refine .tree ((passes_enter tokens c).trans h) fun hlt => ?_
  have honward := h.onward
  rw [index_enter_of_lt hlt] at honward
  exact honward

/-- Behind a sign or bracket a rule is as orderly as it is elsewhere. -/
theorem orderly_inside (h : ∀ r < room, OrderlyRule tokens r (rule tokens r p)) :
    OrderlyRule tokens room (inside tokens room p) := by
  intro c
  cases room with
  | zero => exact .lapse (.refl tokens c) (Or.inr (Or.inr rfl))
  | succ room =>
      have hin := h room (Nat.lt_succ_self room) c.inward
      have hlimit : c.inward.depth + room = c.depth + (room + 1) := by
        simp only [Cursor.inward]
        omega
      rw [hlimit] at hin
      cases hr : rule tokens room p c.inward with
      | tree e next =>
          rw [hr] at hin
          rw [inside_succ_of_tree hr]
          cases hin with
          | tree passes moved =>
              exact .tree ⟨by simp [passes.depth, Cursor.inward], passes.onward, passes.inside⟩
                moved
      | lapse l stop =>
          rw [hr] at hin
          rw [inside_of_lapse hr]
          cases hin with
          | lapse passes known =>
              exact .lapse ⟨by simp [passes.depth, Cursor.inward], passes.onward, passes.inside⟩
                known

theorem orderly_primary {behindSign inBrackets : Rule} (hs : OrderlyRule tokens room behindSign)
    (hb : OrderlyRule tokens room inBrackets) :
    OrderlyRule tokens room (primary tokens behindSign inBrackets) := by
  intro c
  have henter := passes_enter tokens c
  cases ht : tokenAt? tokens c.index with
  | none =>
      simp only [primary, ht]
      exact .lapse (.refl tokens c) (Or.inl rfl)
  | some t =>
      rcases Phase.next_due_cases t with ⟨value, hv⟩ | ⟨sign, hsign⟩ | ho | hn
      · rw [primary_number ht hv]
        exact orderly_of_enter (.refl tokens _)
      · have hin := hs (c.enter tokens)
        rw [henter.depth] at hin
        rw [primary_sign ht hsign]
        cases hr : behindSign (c.enter tokens) with
        | tree e next =>
            rw [hr] at hin
            exact orderly_of_enter hin.passes
        | lapse l stop =>
            rw [hr] at hin
            exact hin.of_later henter
      · have hin := hb (c.enter tokens)
        rw [henter.depth] at hin
        rw [primary_opening ht ho]
        cases hr : inBrackets (c.enter tokens) with
        | lapse l stop =>
            rw [hr] at hin
            exact hin.of_later henter
        | tree e next =>
            rw [hr] at hin
            dsimp only
            split_ifs
            · exact orderly_of_enter (hin.passes.trans (passes_advance tokens next))
            · exact .lapse (henter.trans hin.passes) (Or.inr (Or.inl rfl))
      · rw [primary_other ht (hn 0)]
        exact .lapse ⟨rfl, Nat.le_refl _, Nat.le_max_left _ _⟩ (Or.inl rfl)

/-- The rest of a chain is orderly behind any part of the chain. -/
theorem orderly_chainFrom {joint? : Kind → Option Operation} {operand : Rule}
    (h : OrderlyRule tokens room operand) {start : Cursor} (left : Expr) (c : Cursor) :
    Passes tokens start c → (start.index < tokens.size → start.index < c.index) →
      Orderly tokens (start.depth + room) start (chainFrom tokens joint? operand left c) := by
  induction left, c using chainFrom.induct tokens joint? operand with
  | case1 left c hj =>
      intro hc hmoved
      rw [chainFrom, hj]
      exact .tree hc hmoved
  | case2 left c op hj l stop ho =>
      intro hc hmoved
      have hpast := hc.trans (passes_advance tokens c)
      have hnext := h (c.advance tokens)
      rw [ho, hpast.depth] at hnext
      rw [chainFrom, hj]
      simp only [ho]
      exact hnext.of_later hpast
  | case3 left c op hj right next ho both hgoes ih =>
      intro hc hmoved
      have hpast := hc.trans (passes_advance tokens c)
      have hnext := h (c.advance tokens)
      rw [ho] at hnext
      rw [chainFrom, hj]
      simp only [ho, dif_pos hgoes]
      exact ih (hpast.trans hnext.passes) fun _ => Nat.lt_of_le_of_lt hc.onward hgoes.1
  | case4 left c op hj right next ho hgoes =>
      intro hc hmoved
      have hpast := hc.trans (passes_advance tokens c)
      have hnext := h (c.advance tokens)
      rw [ho] at hnext
      rw [chainFrom, hj]
      simp only [ho, dif_neg hgoes]
      refine .tree (hpast.trans hnext.passes) fun hlt => ?_
      exact Nat.lt_of_lt_of_le (hmoved hlt)
        (Nat.le_trans (passes_advance tokens c).onward hnext.passes.onward)

theorem orderly_chain (h : OrderlyRule tokens room (rule tokens room rank.operand)) :
    OrderlyRule tokens room (rule tokens room (.chain rank)) := by
  intro c
  have hfirst := h c
  rw [rule_chain, chain]
  cases ho : rule tokens room rank.operand c with
  | lapse l stop =>
      rw [ho] at hfirst
      exact hfirst
  | tree left next =>
      rw [ho] at hfirst
      cases hfirst with
      | tree passes moved => exact orderly_chainFrom h left next passes moved

end Orderly

/-- **Every rule is orderly, on any tokens.** -/
theorem rule_orderly (tokens : Array Token) (p : Phrase) (room : Nat) :
    OrderlyRule tokens room (rule tokens room p) := by
  have hfactor : ∀ room, OrderlyRule tokens room (rule tokens room .factor) := by
    intro room
    -- what stands behind a sign or in brackets is read with less room
    induction room using Nat.strongRecOn with
    | _ room ih =>
        have hterm (r : Nat) (hr : r < room) :
            OrderlyRule tokens r (rule tokens r (.chain .term)) := orderly_chain (ih r hr)
        have hexpression (r : Nat) (hr : r < room) :
            OrderlyRule tokens r (rule tokens r (.chain .expression)) := orderly_chain (hterm r hr)
        rw [factor_eq]
        exact orderly_primary (orderly_inside ih) (orderly_inside hexpression)
  have hterm : OrderlyRule tokens room (rule tokens room (.chain .term)) :=
    orderly_chain (hfactor room)
  match p with
  | .factor => exact hfactor room
  | .chain .term => exact hterm
  | .chain .expression => exact orderly_chain hterm

/-! ### Behind the last token -/

section Held

variable {tokens : Array Token} {room : Nat} {p : Phrase} {rank : Rank} {op : Operation}
  {c next : Cursor} {right : Expr}

/-- Among no tokens there is no operation. -/
theorem exists_seen_of_operation {i : Nat} (h : (kindAt tokens i).operation?.isSome) :
    ∃ t, tokenAt? tokens i = some t ∧ t.kind.operation?.isSome := by
  rw [kindAt] at h
  cases ht : tokenAt? tokens i with
  | none =>
      rw [ht] at h
      cases h
  | some t =>
      rw [ht] at h
      exact ⟨t, rfl, h⟩

/-- Where an operand is due, an operation is a sign or is refused. -/
theorem sign_or_refused_of_operation {t : Token} (h : t.kind.operation?.isSome) :
    (∃ sign, t.kind.sign? = some sign) ∨ (Phase.due 0).next t = none := by
  cases hk : t.kind <;>
    simp_all [Kind.operation?, Kind.additive?, Kind.multiplicative?, Kind.sign?, Phase.next]

theorem inside_lapses (h : ∀ r < room, ∃ l stop, rule tokens r p c.inward = .lapse l stop) :
    ∃ l stop, inside tokens room p c = .lapse l stop := by
  cases room with
  | zero => exact ⟨_, _, inside_zero⟩
  | succ room =>
      obtain ⟨l, stop, hr⟩ := h room (Nat.lt_succ_self room)
      exact ⟨l, _, inside_of_lapse hr⟩

/-- An operation that is held behind the last token makes no factor: as a sign it stands before
itself until no more signs may be opened. -/
theorem factor_lapses_of_held (room : Nat) : ∀ c : Cursor, tokens.size ≤ c.index →
    (kindAt tokens c.index).operation?.isSome →
      ∃ l stop, rule tokens room .factor c = .lapse l stop := by
  induction room using Nat.strongRecOn with
  | _ room ih =>
      intro c hi hop
      obtain ⟨t, ht, hk⟩ := exists_seen_of_operation hop
      rw [factor_eq]
      rcases sign_or_refused_of_operation hk with ⟨sign, hsign⟩ | hn
      · have henter : (c.enter tokens).inward.index = c.index := by
          have hstays : c.offer.advance tokens = c.offer := advance_of_le hi
          rw [Cursor.enter, hstays]
          rfl
        obtain ⟨l, stop, hr⟩ := inside_lapses (p := .factor) (c := c.enter tokens) fun r hr =>
          ih r hr _ (henter ▸ hi) (henter ▸ hop)
        exact ⟨l, stop, by rw [primary_sign ht hsign, hr]⟩
      · exact ⟨_, _, primary_other ht hn⟩

/-- Nor does it make an operand of a chain. -/
theorem operand_lapses_of_held (room : Nat) (rank : Rank) (hi : tokens.size ≤ c.index)
    (hop : (kindAt tokens c.index).operation?.isSome) :
    ∃ l stop, rule tokens room rank.operand c = .lapse l stop := by
  obtain ⟨l, stop, hr⟩ := factor_lapses_of_held room c hi hop
  cases rank with
  | term => exact ⟨l, stop, hr⟩
  | expression => exact ⟨l, stop, rule_chain_of_lapse hr⟩

/-- **Every round of a chain passes a token**, also where the tokens run out. -/
theorem passes_of_joint (hj : rank.joint? (kindAt tokens c.index) = some op)
    (h : rule tokens room rank.operand (c.advance tokens) = .tree right next) :
    c.index < next.index ∧ next.index ≤ tokens.size := by
  have hop : (kindAt tokens c.index).operation?.isSome := by
    rw [Rank.operation?_of_joint hj]
    rfl
  rcases Nat.lt_or_ge c.index tokens.size with hlt | hge
  · have hrule := rule_orderly tokens rank.operand room (c.advance tokens)
    rw [h] at hrule
    have honward := hrule.passes.onward
    have hinside := hrule.passes.inside
    rw [index_advance_of_lt hlt] at honward hinside
    omega
  · obtain ⟨l, stop, hr⟩ := operand_lapses_of_held room rank hge hop
    rw [advance_of_le hge, hr] at h
    cases h

end Held

/-! ### What reading comes to -/

section Whole

variable {tokens : Array Token} {source : String} {limit : Nat} {e : Expr} {l : Lapse}
  {stop : Cursor}

theorem isOfReader_of_whole (h : whole tokens limit = .lapse l stop) : l.IsOfReader limit := by
  rcases whole_eq_lapse_iff.1 h with hrule | ⟨-, -, rfl⟩
  · have horderly := rule_orderly tokens (.chain .expression) limit .start
    rw [hrule] at horderly
    cases horderly with
    | lapse _ known =>
        rw [Cursor.start, Nat.zero_add] at known
        rcases known with rfl | rfl | rfl
        · exact Or.inl rfl
        · exact Or.inr (Or.inl rfl)
        · exact Or.inr (Or.inr (Or.inr rfl))
  · exact Or.inr (Or.inr (Or.inl rfl))

/-- A place that the reader looks at is that of a token, if there are any. -/
theorem positionAt_cases (tokens : Array Token) (i : Nat) :
    (tokens = #[] ∧ positionAt tokens i = Position.start) ∨
      ∃ t ∈ tokens.toList, positionAt tokens i = t.position := by
  rw [positionAt]
  cases ht : tokenAt? tokens i with
  | none => exact Or.inl ⟨eq_empty_of_tokenAt? ht, rfl⟩
  | some t => exact Or.inr ⟨t, mem_of_tokenAt? ht, rfl⟩

end Whole

/-! ### Behind an end mark -/

section Shared

variable {shared rest : List Token} {limit k : Nat} {q : Stage} {l l' : Lapse}
  {stop stop' : Cursor} {source : String} {e : Expr}

theorem stageAt_append (hk : k ≤ shared.length) (rest : List Token) :
    stageAt (shared ++ rest) k = stageAt shared k := by
  rw [stageAt, stageAt, List.take_append_of_le_length hk]

/-- All stages are before the end mark. -/
theorem lt_of_stageAt_append (hend : ∃ t ∈ shared, t.kind = .ending)
    (h : stageAt (shared ++ rest) k = some q) : k < shared.length := by
  obtain ⟨mark, hmem, hm⟩ := hend
  obtain ⟨i, hi⟩ := List.mem_iff_getElem?.1 hmem
  have hlt : i < shared.length := (List.getElem?_eq_some_iff.1 hi).1
  have hi' : (shared ++ rest)[i]? = some mark := by rw [List.getElem?_append_left hlt, hi]
  exact Nat.lt_of_le_of_lt (le_of_ending hi' hm h) hlt

theorem dues_append (hk : k ≤ shared.length) (rest : List Token) :
    dues (shared ++ rest).toArray k = dues shared.toArray k := by
  refine List.filter_congr fun j hj => ?_
  have hle : j ≤ shared.length := Nat.le_trans (Nat.le_of_lt (List.mem_range.1 hj)) hk
  rw [stageAt_append hle]

theorem Within.of_append (hk : k ≤ shared.length)
    (h : Within (shared ++ rest).toArray limit k) : Within shared.toArray limit k := by
  intro j hj q hq
  exact h j hj q (by rw [stageAt_append (Nat.le_trans hj hk), hq])

/-- A reader that is stuck is stuck without what follows the end mark. -/
theorem Stuck.of_append (hend : ∃ t ∈ shared, t.kind = .ending)
    (h : Stuck (shared ++ rest).toArray limit l stop) : Stuck shared.toArray limit l stop := by
  cases h with
  | refused stage within token refuses offered =>
      have hlt := lt_of_stageAt_append hend stage
      rw [stageAt_append (Nat.le_of_lt hlt)] at stage
      rw [List.getElem?_append_left hlt] at token
      rw [dues_append hlt] at offered
      exact .refused stage (within.of_append (Nat.le_of_lt hlt)) token refuses offered
  | @tooDeep k q t _ stage within token due opens full behind offered =>
      have hlt := lt_of_stageAt_append hend stage
      rw [stageAt_append (Nat.le_of_lt hlt)] at stage
      rw [List.getElem?_append_left hlt] at token
      rw [behind, dues_append hlt] at offered
      exact .tooDeep stage (within.of_append (Nat.le_of_lt hlt)) token due opens full behind
        (behind ▸ offered)

/-- It is stuck at one place only, and for one reason. -/
theorem Stuck.det {tokens : Array Token} (h : Stuck tokens limit l stop)
    (h' : Stuck tokens limit l' stop') : l = l' ∧ stop.index = stop'.index := by
  rcases Nat.lt_or_ge limit (nesting tokens.toList) with hn | hn
  · obtain ⟨k, hk, hopens, hfirst, rfl⟩ := h.tooDeep_of_lt_nesting hn
    obtain ⟨k', hk', hopens', hfirst', rfl⟩ := h'.tooDeep_of_lt_nesting hn
    have hkk : k = k' := Nat.le_antisymm (Nat.le_of_not_lt fun hlt => hfirst k' hlt hopens')
      (Nat.le_of_not_lt fun hlt => hfirst' k hlt hopens)
    exact ⟨rfl, by rw [hk, hk', hkk]⟩
  · exact h.unique h' hn hn

theorem Stuck.exists_token {tokens : Array Token} (hend : ∃ t ∈ tokens.toList, t.kind = .ending)
    (h : Stuck tokens limit l stop) : ∃ t, tokens.toList[stop.index]? = some t := by
  cases h with
  | refused _ _ token _ _ => exact ⟨_, token⟩
  | @tooDeep k q t _ stage _ token due opens full behind _ =>
      have hopens : OpensAt tokens.toList limit k := ⟨q, t, stage, due, full, token, opens⟩
      obtain ⟨r, hr, -⟩ := hopens.exists_stageAt
      exact behind ▸ exists_getElem?_of_stageAt hend hr

theorem beforeEnd_append (hend : ∃ t ∈ shared, t.kind = .ending) (rest : List Token) :
    beforeEnd (shared ++ rest) = beforeEnd shared := by
  induction shared with
  | nil => simp at hend
  | cons t ts ih =>
      by_cases ht : t.kind = .ending
      · simp [beforeEnd, ht]
      · have hts : ∃ t ∈ ts, t.kind = .ending := by simpa [ht] using hend
        have hrest := ih hts
        simp only [beforeEnd] at hrest
        simp [beforeEnd, ht, hrest]

theorem exists_ending_append (hend : ∃ t ∈ shared, t.kind = .ending) (rest : List Token) :
    ∃ t ∈ (shared ++ rest).toArray.toList, t.kind = .ending := by
  obtain ⟨mark, hmem, hm⟩ := hend
  exact ⟨mark, List.mem_append_left rest hmem, hm⟩

/-- **Nothing behind an end mark is looked at.** -/
theorem ofTokens_append (hend : ∃ t ∈ shared, t.kind = .ending) (rest : List Token)
    (source : String) (limit : Nat) :
    (ofTokens source limit (shared ++ rest).toArray).value =
      (ofTokens source limit shared.toArray).value := by
  have hall := exists_ending_append hend rest
  have hok (e : Expr) : (ofTokens source limit (shared ++ rest).toArray).value = .ok e ↔
      (ofTokens source limit shared.toArray).value = .ok e := by
    rw [ofTokens_eq_ok_iff_derives, ofTokens_eq_ok_iff_derives, beforeEnd_append hend]
    exact and_congr_left fun _ => iff_of_true hall hend
  cases h : (ofTokens source limit (shared ++ rest).toArray).value with
  | ok e => exact ((hok e).1 h).symm
  | error fault =>
      cases h' : (ofTokens source limit shared.toArray).value with
      | ok e =>
          rw [(hok e).2 h'] at h
          cases h
      | error fault' =>
          obtain ⟨l, stop, hw, rfl⟩ := ofTokens_eq_error_iff.1 h
          obtain ⟨l', stop', hw', rfl⟩ := ofTokens_eq_error_iff.1 h'
          have hstuck := (stuck_of_whole hall hw).of_append hend
          obtain ⟨rfl, hindex⟩ := hstuck.det (stuck_of_whole hend hw')
          obtain ⟨t, ht⟩ := hstuck.exists_token hend
          have hlt : stop.index < shared.length := (List.getElem?_eq_some_iff.1 ht).1
          have ht' : (shared ++ rest).toArray.toList[stop.index]? = some t := by
            rw [List.getElem?_append_left hlt]
            exact ht
          rw [← hindex, positionAt_of_ahead (ahead_of_getElem? ht'),
            positionAt_of_ahead (ahead_of_getElem? ht)]

end Shared

/-- **What reading comes to on any tokens.**  A tree is read only where there is an end mark.
Otherwise the fault is one of four, none of which complains of a kind that is no operator, and its
place is that of a token, if there are any.  Reading ends, as every round of a chain passes a token
and stays among the tokens; where a kind is taken for an operation or a sign, it stands for one; and
what follows an end mark may be any other tokens. -/
theorem ofTokens_safe (source : String) (limit : Nat) (tokens : Array Token) :
    (∀ e, (ofTokens source limit tokens).value = .ok e → ∃ t ∈ tokens.toList, t.kind = .ending) ∧
    (∀ fault, (ofTokens source limit tokens).value = .error fault →
      fault.source = source ∧
      fault.message ∈ ["expected int or float", "expected ')'", "expected '+', '-', '*', or '/'",
        "maximum nesting depth of " ++ toString limit ++ " exceeded"] ∧
      (∀ complaint : NotOperator, fault.message ≠ complaint.message) ∧
      ((∃ t ∈ tokens.toList, fault.position = t.position) ∨
        tokens = #[] ∧ fault.position = Position.start)) ∧
    (∀ (room : Nat) (rank : Rank) (op : Operation) (c next : Cursor) (right : Expr),
      rank.joint? (kindAt tokens c.index) = some op →
      rule tokens room rank.operand (c.advance tokens) = .tree right next →
        c.index < next.index ∧ next.index ≤ tokens.size) ∧
    (∀ (rank : Rank) (kind : Kind) (op : Operation), rank.joint? kind = some op →
      Operation.ofKind kind = .ok op) ∧
    (∀ (kind : Kind) (sign : Sign), kind.sign? = some sign → Sign.ofKind kind = .ok sign) ∧
    ∀ shared rest rest' : List Token, tokens.toList = shared ++ rest →
      (∃ t ∈ shared, t.kind = .ending) →
        (ofTokens source limit (shared ++ rest').toArray).value =
          (ofTokens source limit tokens).value := by
  refine ⟨?_, ?_, ?_, ?_, ?_, ?_⟩
  · intro e h
    exact (ofTokens_eq_ok_iff_derives.1 h).1
  · intro fault h
    obtain ⟨l, stop, hw, rfl⟩ := ofTokens_eq_error_iff.1 h
    have hknown := isOfReader_of_whole hw
    exact ⟨rfl, hknown.message_mem, hknown.message_ne, (positionAt_cases tokens stop.index).symm⟩
  · intro room rank op c next right
    exact passes_of_joint
  · intro rank kind op h
    rw [Operation.ofKind, Rank.operation?_of_joint h]
  · intro kind sign h
    rw [Sign.ofKind, h]
  · intro shared rest rest' hall hend
    have htokens : tokens = (shared ++ rest).toArray := by rw [← hall]
    rw [htokens, ofTokens_append hend, ofTokens_append hend]

/-- The tokens of `((1)` without an end mark. -/
def unended : Array Token :=
  #[⟨.opening, none, ⟨0, 1, 0⟩⟩, ⟨.opening, none, ⟨1, 1, 1⟩⟩, ⟨.integer, some (.int 1), ⟨2, 1, 2⟩⟩,
    ⟨.closing, none, ⟨3, 1, 3⟩⟩]

/-- The last bracket is held behind the end and closes both of the others.  With an end mark in
its place, nothing is read behind the mark. -/
theorem ofTokens_safe_unended :
    (ofTokens "sums" 2 unended).value =
      .error ⟨.ungrammatical .operationDue, "sums", ⟨3, 1, 3⟩⟩ ∧
    (∃ t ∈ unended.toList, (⟨3, 1, 3⟩ : Position) = t.position) ∧
    (ofTokens "sums" 0 #[⟨.integer, some (.int 1), ⟨0, 1, 0⟩⟩, ⟨.ending, none, ⟨1, 1, 1⟩⟩,
      ⟨.minus, none, ⟨1, 1, 1⟩⟩]).value = .ok (.literal (.int 1) ⟨0, 1, 0⟩) := by
  have hfault : (ofTokens "sums" 2 unended).value =
      .error ⟨.ungrammatical .operationDue, "sums", ⟨3, 1, 3⟩⟩ := by
    decide +kernel
  have hread : (ofTokens "sums" 0 #[⟨.integer, some (.int 1), ⟨0, 1, 0⟩⟩,
      ⟨.ending, none, ⟨1, 1, 1⟩⟩]).value = .ok (.literal (.int 1) ⟨0, 1, 0⟩) := by
    decide +kernel
  obtain ⟨-, hsafe, -⟩ := ofTokens_safe "sums" 2 unended
  have hplace := (hsafe _ hfault).2.2.2.resolve_right fun h => absurd h.1 (by decide)
  have hbehind := (ofTokens_safe "sums" 0 #[⟨.integer, some (.int 1), ⟨0, 1, 0⟩⟩,
      ⟨.ending, none, ⟨1, 1, 1⟩⟩]).2.2.2.2.2 _ [] [⟨.minus, none, ⟨1, 1, 1⟩⟩]
      (List.append_nil _).symm ⟨⟨.ending, none, ⟨1, 1, 1⟩⟩, by simp, rfl⟩
  exact ⟨hfault, hplace, hbehind.trans hread⟩

end Expr

end Reckoner
