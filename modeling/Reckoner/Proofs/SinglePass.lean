/-
**The reader passes over the tokens once.**

Wherever the reader looks for an operand it reports the token that it finds there.  This module
shows that the reports follow the tokens from left to right: no token is reported twice, none before
one that stands to the left of it, and none behind the end mark, however deep in signs and brackets
and on whatever rank of chains it is looked at.  So nothing is ever read again.

If a tree comes of it, the reports are also complete: they name the tokens with which an operand
begins, that is the numbers, the opening brackets and the signs.  Plus and minus are signs in some
places and operations in others, and it is the tree that tells which of the two they have become:
from left to right its nodes are what became of the tokens, brackets left out.

Main definitions:

* `Reckoner.Event.operand?`, `Reckoner.Expr.operandPlaces` — the tokens that are reported, and their
  places;
* `Reckoner.Expr.nodes` — the nodes of a tree from left to right;
* `Reckoner.Grammar.Became` — what became of a token;
* `Reckoner.Grammar.Stage.marks` — the tokens before which an operand is due.

Main results:

* `Reckoner.Grammar.Derives.exists_nodes` — what became of the tokens of a phrase, and before which
  of them an operand was due;
* `Reckoner.Expr.map_operand_events` — the reports are about the operand places;
* `Reckoner.Expr.ofTokens_single_pass` — **operands are looked for from left to right, once at each
  place where one begins**.
-/

import Reckoner.Proofs.SignChains
import Reckoner.Proofs.Threshold
import Mathlib

set_option relaxedAutoImplicit false
set_option autoImplicit false

namespace Reckoner

/-- The token that an event reports where an operand is due. -/
def Event.operand? : Event → Option Token
  | offered t => some t
  | _ => none

/-! ### Nodes and tokens -/

namespace Expr

/-- The nodes of a tree from left to right: a sign stands before its operand, and an operation
between its operands. -/
def nodes : Expr → List Expr
  | literal value p => [literal value p]
  | signed sign operand p => signed sign operand p :: operand.nodes
  | joined op left right p => left.nodes ++ joined op left right p :: right.nodes

/-- Is the node an operation? -/
def isJoined : Expr → Bool
  | literal _ _ => false
  | signed _ _ _ => false
  | joined _ _ _ _ => true

end Expr

namespace Grammar

/-- What became of a token: a node at its place, or nothing of a bracket. -/
inductive Became (t : Token) : Option Expr → Prop
  | bracket (h : t.kind = .opening ∨ t.kind = .closing) : Became t none
  | number {value : Number} (h : IsNumber t value) : Became t (some (.literal value t.position))
  | sign {sign : Sign} {operand : Expr} (h : t.kind.sign? = some sign) :
      Became t (some (.signed sign operand t.position))
  | operation {op : Operation} {left right : Expr} (h : t.kind.operation? = some op) :
      Became t (some (.joined op left right t.position))

/-- Does an operand begin with the token of which this became? -/
def beginsOperand (t : Token) : Option Expr → Bool
  | none => t.kind == .opening
  | some node => !node.isJoined

/-- An operand begins with a number, with an opening bracket, and with a plus or minus that became a
sign. -/
theorem Became.beginsOperand_iff {t : Token} {node : Option Expr} (h : Became t node) :
    beginsOperand t node = true ↔ t.kind = .integer ∨ t.kind = .decimal ∨ t.kind = .opening ∨
      ∃ sign operand, node = some (.signed sign operand t.position) := by
  cases h with
  | bracket h => rcases h with h | h <;> simp [beginsOperand, h]
  | number h => rcases h.1 with hk | hk <;> simp [beginsOperand, Expr.isJoined, hk]
  | sign h => simp [beginsOperand, Expr.isJoined]
  | operation h =>
      have hk : t.kind ≠ .integer ∧ t.kind ≠ .decimal := by
        constructor <;> intro hk <;> rw [hk] at h <;> cases h
      simp [beginsOperand, Expr.isJoined, hk, ne_bracket_of_operation h]

/-- What became of a token stands at the same place as the token. -/
theorem became_at {ts : List Token} {nodes : List (Option Expr)}
    (h : List.Forall₂ Became ts nodes) {i : Nat} {t : Token} (ht : ts[i]? = some t) :
    ∃ node, nodes[i]? = some node ∧ Became t node := by
  obtain ⟨hi, rfl⟩ := List.getElem?_eq_some_iff.1 ht
  have hnode : i < nodes.length := h.length_eq ▸ hi
  exact ⟨nodes[i], List.getElem?_eq_getElem hnode, h.get hi hnode⟩

theorem beginsOperand_at {ts : List Token} {nodes : List (Option Expr)}
    (h : List.Forall₂ Became ts nodes) {i : Nat} :
    (List.zipWith beginsOperand ts nodes)[i]? = some true ↔ ∃ t, ts[i]? = some t ∧
      (t.kind = .integer ∨ t.kind = .decimal ∨ t.kind = .opening ∨
        ∃ sign operand, nodes[i]? = some (some (.signed sign operand t.position))) := by
  rw [List.getElem?_zipWith_eq_some]
  constructor
  · rintro ⟨t, node, ht, hnode, hbegins⟩
    obtain ⟨node', hnode', hbecame⟩ := became_at h ht
    obtain rfl : node = node' := Option.some.inj (hnode.symm.trans hnode')
    have hkinds := hbecame.beginsOperand_iff.1 hbegins
    exact ⟨t, ht, by simpa only [hnode, Option.some.injEq] using hkinds⟩
  · rintro ⟨t, ht, hkinds⟩
    obtain ⟨node, hnode, hbecame⟩ := became_at h ht
    refine ⟨t, node, ht, hnode, hbecame.beginsOperand_iff.2 ?_⟩
    simpa only [hnode, Option.some.injEq] using hkinds

/-- Every token begins an operand, or is an operation, or closes a bracket. -/
theorem count_beginsOperand {ts : List Token} {nodes : List (Option Expr)}
    (h : List.Forall₂ Became ts nodes) : (List.zipWith beginsOperand ts nodes).count true +
      nodes.reduceOption.countP Expr.isJoined + closed ts = ts.length := by
  induction h with
  | nil => rfl
  | @cons t node ts nodes hnode _ ih =>
      rw [List.zipWith_cons_cons, List.count_cons, closed_cons, List.length_cons]
      cases hnode with
      | bracket h =>
          rw [List.reduceOption_cons_of_none]
          rcases h with h | h <;> simp [beginsOperand, h] <;> omega
      | number h =>
          rw [List.reduceOption_cons_of_some, List.countP_cons]
          simp [beginsOperand, Expr.isJoined, ne_bracket_of_number h]
          omega
      | sign h =>
          rw [List.reduceOption_cons_of_some, List.countP_cons]
          simp [beginsOperand, Expr.isJoined, ne_bracket_of_sign h]
          omega
      | operation h =>
          rw [List.reduceOption_cons_of_some, List.countP_cons]
          simp [beginsOperand, Expr.isJoined, ne_bracket_of_operation h]
          omega

/-! ### Tokens before which an operand is due -/

namespace Stage

/-- For each token whether an operand is due before it, up to the first one that may not stand where
it stands. -/
def marks : Stage → List Token → List Bool
  | _, [] => []
  | q, t :: ts =>
      q.isDue ::
        match q.next t with
        | none => []
        | some r => r.marks ts

theorem marks_cons {q r : Stage} {t : Token} (h : q.next t = some r) (ts : List Token) :
    q.marks (t :: ts) = q.isDue :: r.marks ts := by
  simp only [marks, h]

theorem getElem?_marks {ts : List Token} : ∀ {q : Stage} {k : Nat}, k < ts.length →
    (q.marks ts)[k]? = (q.after (ts.take k)).map isDue := by
  induction ts with
  | nil =>
      intro q k hk
      exact absurd hk (Nat.not_lt_zero k)
  | cons t ts ih =>
      intro q k hk
      cases k with
      | zero => rfl
      | succ k =>
          rw [List.take_succ_cons, after_cons]
          cases hn : q.next t with
          | none => simp [marks, hn]
          | some r =>
              rw [marks_cons hn, List.getElem?_cons_succ, ih (Nat.lt_of_succ_lt_succ hk)]
              rfl

end Stage

/-- **What became of the tokens of a phrase, and before which of them an operand was due.**  From
left to right they became the nodes of the tree, and an operand was due before those that begin
one. -/
theorem Derives.exists_nodes {p : Phrase} {ts : List Token} {e : Expr} {d : Nat}
    (h : Derives p ts e d) : ∃ nodes, List.Forall₂ Became ts nodes ∧
      nodes.reduceOption = e.nodes ∧
      ∀ (signs : Nat) (brackets : List Nat) (rest : List Token), (p ≠ .factor → signs = 0) →
        (Stage.due signs brackets).marks (ts ++ rest) =
          List.zipWith beginsOperand ts nodes ++ (Stage.complete brackets).marks rest := by
  induction h with
  | number h =>
      refine ⟨_, .cons (.number h) .nil, rfl, ?_⟩
      intro signs brackets rest _
      exact Stage.marks_cons (Stage.next_number h signs brackets) rest
  | @signed t sign ts e d h _ ih =>
      obtain ⟨nodes, hnodes, hall, hmarks⟩ := ih
      refine ⟨_ :: nodes, .cons (@Became.sign t sign e h) hnodes, ?_, ?_⟩
      · rw [List.reduceOption_cons_of_some, hall, Expr.nodes]
      · intro signs brackets rest _
        rw [List.cons_append, Stage.marks_cons (Stage.next_sign h signs brackets),
          hmarks _ _ _ (by simp)]
        rfl
  | @bracketed first last ts e d hf hl _ ih =>
      obtain ⟨nodes, hnodes, hall, hmarks⟩ := ih
      have hlast : List.Forall₂ Became [last] [none] := .cons (.bracket (Or.inr hl)) .nil
      refine ⟨none :: (nodes ++ [none]),
        .cons (.bracket (Or.inl hf)) (List.rel_append hnodes hlast), ?_, ?_⟩
      · rw [List.reduceOption_cons_of_none, List.reduceOption_append, hall,
          List.reduceOption_cons_of_none, List.reduceOption_nil, List.append_nil]
      · intro signs brackets rest _
        rw [List.cons_append, Stage.marks_cons (Stage.next_opening hf signs brackets),
          List.append_assoc, hmarks _ _ _ (by simp), List.singleton_append,
          Stage.marks_cons (Stage.next_closing hl signs brackets), List.zipWith_cons_cons,
          List.zipWith_append hnodes.length_eq]
        simp [beginsOperand, Stage.isDue, hf, hl]
  | single _ ih =>
      obtain ⟨nodes, hnodes, hall, hmarks⟩ := ih
      refine ⟨nodes, hnodes, hall, ?_⟩
      intro signs brackets rest hp
      exact hmarks signs brackets rest fun _ => hp (by simp)
  | @joined rank t op ls rs l r d d' h _ _ ihl ihr =>
      obtain ⟨lnodes, hlnodes, hlall, hlmarks⟩ := ihl
      obtain ⟨rnodes, hrnodes, hrall, hrmarks⟩ := ihr
      have hop := Rank.operation?_of_joint h
      refine ⟨lnodes ++ _ :: rnodes,
        List.rel_append hlnodes (.cons (@Became.operation t op l r hop) hrnodes), ?_, ?_⟩
      · rw [List.reduceOption_append, List.reduceOption_cons_of_some, hlall, hrall, Expr.nodes]
      · intro signs brackets rest hp
        obtain rfl := hp (by simp)
        rw [List.append_assoc, List.cons_append, hlmarks _ _ _ (by simp),
          Stage.marks_cons (Stage.next_joint h brackets), hrmarks _ _ _ (by simp),
          List.zipWith_append hlnodes.length_eq, List.zipWith_cons_cons]
        simp [beginsOperand, Expr.isJoined, Stage.isDue]

end Grammar

namespace Expr

open Grammar

/-! ### Places where an operand is due -/

section Dues

variable {tokens : Array Token} {j k : Nat}

theorem mem_dues_iff : j ∈ dues tokens k ↔
    j < k ∧ ∃ q, stageAt tokens.toList j = some q ∧ q.isDue = true := by
  simp [dues, Option.any_eq_true]

theorem mem_dues_iff_marks (hk : k ≤ tokens.size) : j ∈ dues tokens k ↔
    j < k ∧ ((Stage.due 0 []).marks tokens.toList)[j]? = some true := by
  rw [mem_dues_iff]
  refine and_congr_right fun hj => ?_
  have hlt : j < tokens.toList.length := Nat.lt_of_lt_of_le hj hk
  rw [Stage.getElem?_marks hlt, ← stageAt, Option.map_eq_some_iff]

theorem length_dues : ∀ {k : Nat}, k ≤ tokens.size → (dues tokens k).length =
    (((Stage.due 0 []).marks tokens.toList).take k).count true := by
  intro k
  induction k with
  | zero =>
      intro _
      rfl
  | succ k ih =>
      intro hk
      have hlt : k < tokens.toList.length := hk
      have hlast := Stage.getElem?_marks (q := .due 0 []) hlt
      rw [← stageAt] at hlast
      rw [dues, List.range_succ, List.filter_append, ← dues, List.length_append,
        ih (Nat.le_of_succ_le hk), List.take_add_one, List.count_append, hlast]
      cases hs : stageAt tokens.toList k with
      | none => simp [hs]
      | some q => cases hq : q.isDue <;> simp [hs, hq]

theorem pairwise_dues : (dues tokens k).Pairwise (· < ·) :=
  List.pairwise_lt_range.filter _

end Dues

/-! ### The first end mark -/

section BeforeEnd

variable {ts : List Token}

theorem exists_getElem?_beforeEnd (h : ∃ t ∈ ts, t.kind = .ending) :
    ∃ mark, ts[(beforeEnd ts).length]? = some mark ∧ mark.kind = .ending := by
  obtain ⟨mark, rest, hall, hm⟩ := exists_mark_of_mem h
  have hmark : (beforeEnd ts ++ mark :: rest)[(beforeEnd ts).length]? = some mark := by simp
  rw [← hall] at hmark
  exact ⟨mark, hmark, hm⟩

theorem kind_ne_ending_of_lt {i : Nat} {t : Token} (hi : i < (beforeEnd ts).length)
    (ht : ts[i]? = some t) : t.kind ≠ .ending := by
  have hbefore : (beforeEnd ts)[i]? = some t := by
    rw [← ht, List.getElem?_eq_getElem hi]
    exact ((List.prefix_iff_getElem?.1 (List.takeWhile_prefix _)) i hi).symm
  have hne := List.mem_takeWhile_imp (List.mem_of_getElem? hbefore)
  simpa using hne

end BeforeEnd

/-! ### Places of operands -/

/-- The places where the reader has looked for an operand, in their order. -/
def operandPlaces (tokens : Array Token) (limit : Nat) : List Nat :=
  (whole tokens limit).cursor.offered.reverse

section Places

variable {source : String} {limit : Nat} {tokens : Array Token} {e : Expr}

theorem operand_events (source : String) (limit : Nat) (tokens : Array Token) :
    (ofTokens source limit tokens).events.filterMap Event.operand? =
      (operandPlaces tokens limit).filterMap (tokenAt? tokens) := by
  have hoffered (ts : List Token) : (ts.map Event.offered).filterMap Event.operand? = ts := by
    rw [List.filterMap_map]
    exact List.filterMap_some
  rw [ofTokens, operandPlaces]
  cases whole tokens limit with
  | lapse l stop =>
      rw [List.filterMap_cons_none rfl, hoffered, Outcome.cursor]
  | tree e next =>
      rw [List.filterMap_append, List.filterMap_cons_none rfl, hoffered, Outcome.cursor]
      exact List.append_nil _

/-- No operand is looked for behind the first end mark. -/
theorem le_of_mem_operandPlaces (hend : ∃ t ∈ tokens.toList, t.kind = .ending) {i : Nat}
    (hi : i ∈ operandPlaces tokens limit) : i ≤ (beforeEnd tokens.toList).length := by
  obtain ⟨k, hk⟩ := exists_dues_of_whole hend limit
  rw [operandPlaces, hk] at hi
  obtain ⟨-, q, hq, -⟩ := mem_dues_iff.1 hi
  obtain ⟨mark, hmark, hm⟩ := exists_getElem?_beforeEnd hend
  exact le_of_ending hmark hm hq

/-- **The reports are about the operand places.** -/
theorem map_operand_events (hend : ∃ t ∈ tokens.toList, t.kind = .ending) (source : String)
    (limit : Nat) : ((ofTokens source limit tokens).events.filterMap Event.operand?).map some =
      (operandPlaces tokens limit).map fun i => tokens[i]? := by
  have hinside : ∀ i ∈ operandPlaces tokens limit, i < tokens.size := by
    intro i hi
    obtain ⟨mark, hmark, -⟩ := exists_getElem?_beforeEnd hend
    have hlt : (beforeEnd tokens.toList).length < tokens.size :=
      (List.getElem?_eq_some_iff.1 hmark).1
    exact Nat.lt_of_le_of_lt (le_of_mem_operandPlaces hend hi) hlt
  rw [operand_events]
  generalize operandPlaces tokens limit = places at hinside
  induction places with
  | nil => rfl
  | cons i places ih =>
      have hi := hinside i List.mem_cons_self
      have hseen : tokenAt? tokens i = some tokens[i] := by
        rw [tokenAt?, Array.getElem?_eq_getElem hi, Option.some_or]
      rw [List.filterMap_cons_some hseen, List.map_cons, List.map_cons,
        Array.getElem?_eq_getElem hi, ih fun j hj => hinside j (List.mem_cons_of_mem i hj)]

/-- Behind a tree the reader stands before the first end mark. -/
theorem index_of_whole {next : Cursor} (h : whole tokens limit = .tree e next) :
    next.index = (beforeEnd tokens.toList).length := by
  obtain ⟨hstands, hk⟩ := stands_of_whole h
  have hend := exists_ending_of_whole h
  obtain ⟨mark, hmark, hm⟩ := exists_getElem?_beforeEnd hend
  refine Nat.le_antisymm (le_of_ending hmark hm hstands.stage) (Nat.le_of_not_lt fun hlt => ?_)
  obtain ⟨t, more, ht⟩ := hstands.exists_ahead hend
  rw [kindAt_of_ahead ht] at hk
  exact kind_ne_ending_of_lt hlt (getElem?_of_ahead ht) hk

/-- Behind a tree all places before the first end mark where an operand was due have been looked
at. -/
theorem operandPlaces_of_ofTokens (h : (ofTokens source limit tokens).value = .ok e) :
    operandPlaces tokens limit = dues tokens (beforeEnd tokens.toList).length := by
  obtain ⟨next, hw⟩ := ofTokens_eq_ok_iff.1 h
  rw [operandPlaces, hw, Outcome.cursor, (stands_of_whole hw).1.offered, List.reverse_reverse,
    index_of_whole hw]

/-- **They are those of the tokens with which an operand begins.** -/
theorem exists_nodes_of_ofTokens (h : (ofTokens source limit tokens).value = .ok e) :
    ∃ nodes, List.Forall₂ Became (beforeEnd tokens.toList) nodes ∧ nodes.reduceOption = e.nodes ∧
      (∀ i, i ∈ operandPlaces tokens limit ↔
        (List.zipWith beginsOperand (beforeEnd tokens.toList) nodes)[i]? = some true) ∧
      (operandPlaces tokens limit).length =
        (List.zipWith beginsOperand (beforeEnd tokens.toList) nodes).count true := by
  obtain ⟨hend, d, -, hd⟩ := ofTokens_eq_ok_iff_derives.1 h
  obtain ⟨nodes, hnodes, hall, hmarks⟩ := hd.exists_nodes
  obtain ⟨mark, rest, htokens, -⟩ := exists_mark_of_mem hend
  have hplaces := operandPlaces_of_ofTokens h
  have hmarked := hmarks 0 [] (mark :: rest) fun _ => rfl
  rw [← htokens] at hmarked
  generalize hts : beforeEnd tokens.toList = ts at *
  have hlength : (List.zipWith beginsOperand ts nodes).length = ts.length := by
    rw [List.length_zipWith, ← hnodes.length_eq, Nat.min_self]
  have hsize : ts.length ≤ tokens.size := by
    rw [← Array.length_toList, htokens, List.length_append]
    exact Nat.le_add_right _ _
  refine ⟨nodes, hnodes, hall, fun i => ?_, ?_⟩
  · rw [hplaces, mem_dues_iff_marks hsize, hmarked]
    constructor
    · rintro ⟨hi, hmark⟩
      rwa [List.getElem?_append_left (hlength.symm ▸ hi)] at hmark
    · intro hmark
      have hi := (List.getElem?_eq_some_iff.1 hmark).1
      exact ⟨hlength ▸ hi, by rwa [List.getElem?_append_left hi]⟩
  · rw [hplaces, length_dues hsize, hmarked, List.take_left' hlength]

end Places

/-- **Operands are looked for from left to right, once at each place where one begins.**  The tokens
that the reader reports where it expects an operand stand at places that grow, up to the first end
mark at most, whatever reading comes to.  If it comes to a tree, the tokens before the end mark
became the nodes of that tree, from left to right and except for the brackets, and the reports are
about all numbers, all opening brackets and all tokens that became a sign.  So there is one for
every token but the operations of the tree and the closing brackets. -/
theorem ofTokens_single_pass (source : String) (limit : Nat) {tokens : Array Token}
    (hend : ∃ t ∈ tokens.toList, t.kind = .ending) :
    ((ofTokens source limit tokens).events.filterMap Event.operand?).map some =
      (operandPlaces tokens limit).map (fun i => tokens[i]?) ∧
    (operandPlaces tokens limit).Pairwise (· < ·) ∧
    (∀ i ∈ operandPlaces tokens limit, i ≤ (beforeEnd tokens.toList).length) ∧
    ∀ e, (ofTokens source limit tokens).value = .ok e →
      (∃ nodes, List.Forall₂ Became (beforeEnd tokens.toList) nodes ∧
        nodes.reduceOption = e.nodes ∧
        ∀ i, i ∈ operandPlaces tokens limit ↔ ∃ t, (beforeEnd tokens.toList)[i]? = some t ∧
          (t.kind = .integer ∨ t.kind = .decimal ∨ t.kind = .opening ∨
            ∃ sign operand, nodes[i]? = some (some (signed sign operand t.position)))) ∧
      (operandPlaces tokens limit).length + e.nodes.countP isJoined +
        closed (beforeEnd tokens.toList) = (beforeEnd tokens.toList).length := by
  refine ⟨map_operand_events hend source limit, ?_, fun i => le_of_mem_operandPlaces hend, ?_⟩
  · obtain ⟨k, hk⟩ := exists_dues_of_whole hend limit
    rw [operandPlaces, hk]
    exact pairwise_dues
  · intro e he
    obtain ⟨nodes, hnodes, hall, hmem, hcount⟩ := exists_nodes_of_ofTokens he
    refine ⟨⟨nodes, hnodes, hall, fun i => (hmem i).trans (beginsOperand_at hnodes)⟩, ?_⟩
    rw [hcount, ← hall]
    exact count_beginsOperand hnodes

/-- The tokens of `-(1-2)*-3`. -/
def signsAndDifference : Array Token :=
  #[⟨.minus, none, ⟨0, 1, 0⟩⟩, ⟨.opening, none, ⟨1, 1, 1⟩⟩, ⟨.integer, some (.int 1), ⟨2, 1, 2⟩⟩,
    ⟨.minus, none, ⟨3, 1, 3⟩⟩, ⟨.integer, some (.int 2), ⟨4, 1, 4⟩⟩, ⟨.closing, none, ⟨5, 1, 5⟩⟩,
    ⟨.star, none, ⟨6, 1, 6⟩⟩, ⟨.minus, none, ⟨7, 1, 7⟩⟩, ⟨.integer, some (.int 3), ⟨8, 1, 8⟩⟩,
    ⟨.ending, none, ⟨9, 1, 9⟩⟩]

/-- Of the three tokens of one kind the second one is passed over as an operation.  With too low a
limit the reader gives up at the bracket, and has looked for an operand there. -/
theorem ofTokens_single_pass_difference :
    operandPlaces signsAndDifference 2 = [0, 1, 2, 4, 7, 8] ∧
    ((ofTokens "sums" 2 signsAndDifference).events.filterMap Event.operand?).map some =
      (operandPlaces signsAndDifference 2).map (fun i => signsAndDifference[i]?) ∧
    (∃ e, (ofTokens "sums" 2 signsAndDifference).value = .ok e ∧
      (operandPlaces signsAndDifference 2).length + e.nodes.countP isJoined +
        closed (beforeEnd signsAndDifference.toList) =
          (beforeEnd signsAndDifference.toList).length) ∧
    operandPlaces signsAndDifference 1 = [0, 1] ∧
    (operandPlaces signsAndDifference 1).Pairwise (· < ·) := by
  have hend : ∃ t ∈ signsAndDifference.toList, t.kind = .ending :=
    ⟨⟨.ending, none, ⟨9, 1, 9⟩⟩, by decide, rfl⟩
  have hread : (ofTokens "sums" 2 signsAndDifference).value = .ok
      (joined .mul (signed .minus (joined .sub (literal (.int 1) ⟨2, 1, 2⟩)
        (literal (.int 2) ⟨4, 1, 4⟩) ⟨3, 1, 3⟩) ⟨0, 1, 0⟩)
        (signed .minus (literal (.int 3) ⟨8, 1, 8⟩) ⟨7, 1, 7⟩) ⟨6, 1, 6⟩) := by
    decide +kernel
  obtain ⟨hreports, -, -, htree⟩ := ofTokens_single_pass "sums" 2 hend
  exact ⟨by decide +kernel, hreports, ⟨_, hread, (htree _ hread).2⟩, by decide +kernel,
    (ofTokens_single_pass "sums" 1 hend).2.1⟩

end Expr

end Reckoner
