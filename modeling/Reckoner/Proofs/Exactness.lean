/-
**Integer results are exact, and doubles appear only where they must.**

An expression has an exact value if its literals are integers and nothing in it is divided: its
operations and signs then mean what they mean for integers without bounds.  A calculation works
with machine integers for as long as it can.  This module shows how long that is: a tree has an
integer for its value exactly if all of its subtrees have exact values that machine integers can
hold, and that integer is then the exact value of the tree.  An exact value out of range is lost
for good, even if an operation further up would bring it back into range.

Main definitions:

* `Reckoner.Expr.integer?` — the exact value of a tree;
* `Reckoner.Expr.literals`, `Reckoner.Expr.operations`, `Reckoner.Expr.subtrees` — what a tree
  consists of;
* `Reckoner.IsMachineInteger`, `Reckoner.Expr.Holds` — integers that a machine integer can hold,
  and trees all of whose exact values are such integers.

Main results:

* `Reckoner.Operation.apply_eq_int_iff`, `Reckoner.Sign.apply_eq_int_iff` — when a single step
  stays with the integers;
* `Reckoner.Expr.result_eq_int_iff` — when a whole tree does;
* `Reckoner.Expr.evaluate_int_iff_exact` — **a tree evaluates to an integer exactly if it is a tree
  of integers without a division and all exact values in it are in range, and to its exact value
  then; whatever fails this evaluates to a double, and a double never turns back into an integer**.
-/

import Reckoner.Proofs.Evaluation

set_option relaxedAutoImplicit false
set_option autoImplicit false

namespace Reckoner

/-! ### Single steps -/

theorem Number.isInt_iff {v : Number} : v.isInt = true ↔ ∃ n, v = .int n := by
  cases v <;> simp [isInt]

/-- A number is an integer or a double. -/
theorem Number.not_isInt_iff {v : Number} : ¬ v.isInt = true ↔ v.isFloat = true := by
  cases v <;> simp [isInt, isFloat]

/-- A machine integer can hold the integer. -/
def IsMachineInteger (n : Int) : Prop := Int64.minValue.toInt ≤ n ∧ n ≤ Int64.maxValue.toInt

theorem isMachineInteger_toInt (value : Int64) : IsMachineInteger value.toInt :=
  ⟨value.minValue_le_toInt, value.toInt_le⟩

theorem IsMachineInteger.exists_toInt {n : Int} (h : IsMachineInteger n) :
    ∃ value : Int64, n = value.toInt :=
  ⟨Int64.ofInt n, fitted?_eq_some_iff.1 (if_pos h)⟩

/-- The opposite of every integer but the least one is in range. -/
theorem isMachineInteger_neg {a : Int64} (h : a ≠ Int64.minValue) :
    IsMachineInteger (-a.toInt) := by
  have hne : a.toInt ≠ Int64.minValue.toInt := fun heq => h (Int64.toInt_inj.1 heq)
  have hmin : Int64.minValue.toInt = -2 ^ 63 := Int64.toInt_minValue
  have hmax : Int64.maxValue.toInt = 2 ^ 63 - 1 := Int64.toInt_maxValue
  have hle := a.minValue_le_toInt
  have hge := a.toInt_le
  exact ⟨by omega, by omega⟩

/-- No machine integer fits an integer that is out of range. -/
theorem fitted?_eq_none_iff {n : Int} : fitted? n = none ↔ ¬ IsMachineInteger n := by
  simp [fitted?, IsMachineInteger]

/-- An operation stays with the integers if both operands are integers, and if the integer that it
comes to is their exact result. -/
theorem Operation.apply_eq_int_iff {op : Operation} {left right : Number} {n : Int64} :
    op.apply left right = .int n ↔
      ∃ a b, left = .int a ∧ right = .int b ∧ op.onIntegers? a.toInt b.toInt = some n.toInt := by
  cases left with
  | float a => simp [apply, compute]
  | int a =>
      cases right with
      | float b => simp [apply, compute]
      | int b =>
          simp only [apply, compute, Number.int.injEq, exists_and_left, exists_eq_left']
          cases hexact : op.onIntegers? a.toInt b.toInt with
          | none => simp
          | some m =>
              simp only [Option.some.injEq]
              cases hfit : fitted? m with
              | none =>
                  -- the exact result is out of range, so it is no machine integer
                  simp only [reduceCtorEq, false_iff]
                  rintro rfl
                  exact fitted?_eq_none_iff.1 hfit (isMachineInteger_toInt n)
              | some value =>
                  rw [fitted?_eq_some_iff.1 hfit]
                  simp [Int64.toInt_inj]

/-- The integer under a sign, exactly. -/
def Sign.exact : Sign → Int → Int
  | plus, n => n
  | minus, n => -n

/-- A sign stays with the integers if its operand is one, and if the integer that it comes to is
the exact one. -/
theorem Sign.apply_eq_int_iff {sign : Sign} {operand : Number} {n : Int64} :
    sign.apply operand = .int n ↔ ∃ a, operand = .int a ∧ sign.exact a.toInt = n.toInt := by
  cases operand with
  | float a => cases sign <;> simp [apply, compute]
  | int a =>
      simp only [Number.int.injEq, exists_eq_left']
      cases sign with
      | plus => simp [apply, compute, exact, Int64.toInt_inj]
      | minus =>
          simp only [apply, compute, exact]
          cases hfit : fitted? (-a.toInt) with
          | none =>
              simp only [reduceCtorEq, false_iff]
              intro hn
              rw [hn] at hfit
              exact fitted?_eq_none_iff.1 hfit (isMachineInteger_toInt n)
          | some value =>
              rw [fitted?_eq_some_iff.1 hfit]
              simp [Int64.toInt_inj]

namespace Expr

/-! ### What a tree consists of -/

/-- The literals of a tree, from left to right. -/
def literals : Expr → List Number
  | literal value _ => [value]
  | signed _ operand _ => operand.literals
  | joined _ left right _ => left.literals ++ right.literals

/-- The operations of a tree. -/
def operations : Expr → List Operation
  | literal _ _ => []
  | signed _ operand _ => operand.operations
  | joined op left right _ => op :: (left.operations ++ right.operations)

/-- The subtrees of a tree, the tree itself first. -/
def subtrees : Expr → List Expr
  | literal value p => [literal value p]
  | signed sign operand p => signed sign operand p :: operand.subtrees
  | joined op left right p => joined op left right p :: (left.subtrees ++ right.subtrees)

theorem mem_subtrees_self (e : Expr) : e ∈ e.subtrees := by
  cases e <;> simp [subtrees]

/-! ### Exact values -/

/-- The exact value of a tree, over the integers without bounds.  A double has none, and neither
has a quotient. -/
def integer? : Expr → Option Int
  | literal (.int n) _ => some n.toInt
  | literal (.float _) _ => none
  | signed .plus operand _ => operand.integer?
  | signed .minus operand _ => operand.integer?.map fun n => -n
  | joined .add left right _ => do return (← left.integer?) + (← right.integer?)
  | joined .sub left right _ => do return (← left.integer?) - (← right.integer?)
  | joined .mul left right _ => do return (← left.integer?) * (← right.integer?)
  | joined .div _ _ _ => none

theorem integer?_signed_eq_some_iff {sign : Sign} {operand : Expr} {p : Position} {n : Int} :
    (signed sign operand p).integer? = some n ↔
      ∃ m, operand.integer? = some m ∧ sign.exact m = n := by
  cases sign <;> simp [integer?, Sign.exact]

theorem integer?_joined_eq_some_iff {op : Operation} {left right : Expr} {p : Position} {n : Int} :
    (joined op left right p).integer? = some n ↔
      ∃ a b, left.integer? = some a ∧ right.integer? = some b ∧ op.onIntegers? a b = some n := by
  cases op <;> simp [integer?, Operation.onIntegers?, Option.bind_eq_some_iff]

/-- Everything in the tree has an exact value, and machine integers can hold all of these. -/
def Holds (e : Expr) : Prop := ∀ s ∈ e.subtrees, ∃ n, s.integer? = some n ∧ IsMachineInteger n

theorem Holds.exists_toInt {e : Expr} {n : Int} (h : e.Holds) (hn : e.integer? = some n) :
    ∃ value : Int64, n = value.toInt := by
  obtain ⟨m, hm, hrange⟩ := h e e.mem_subtrees_self
  rw [hn, Option.some.injEq] at hm
  subst hm
  exact hrange.exists_toInt

theorem holds_signed_iff {sign : Sign} {operand : Expr} {p : Position} :
    (signed sign operand p).Holds ↔ operand.Holds ∧
      ∃ n, (signed sign operand p).integer? = some n ∧ IsMachineInteger n := by
  simp only [Holds, subtrees, List.forall_mem_cons, and_comm]

theorem holds_joined_iff {op : Operation} {left right : Expr} {p : Position} :
    (joined op left right p).Holds ↔ left.Holds ∧ right.Holds ∧
      ∃ n, (joined op left right p).integer? = some n ∧ IsMachineInteger n := by
  simp only [Holds, subtrees, List.forall_mem_cons, List.forall_mem_append]
  exact ⟨fun ⟨h, hl, hr⟩ => ⟨hl, hr, h⟩, fun ⟨hl, hr, h⟩ => ⟨h, hl, hr⟩⟩

/-- **A tree stays with the integers as long as all exact values in it are in range**, and comes to
its exact value then. -/
theorem result_eq_int_iff {e : Expr} : ∀ {n : Int64},
    e.result = .int n ↔ e.Holds ∧ e.integer? = some n.toInt := by
  induction e with
  | literal value p =>
      intro n
      cases value with
      | float x => simp [result, integer?]
      | int a =>
          have hholds : (literal (.int a) p).Holds := by
            intro s hs
            rw [List.mem_singleton.1 hs]
            exact ⟨_, rfl, isMachineInteger_toInt a⟩
          simp [result, integer?, hholds, Int64.toInt_inj]
  | signed sign operand p ih =>
      intro n
      rw [result, Sign.apply_eq_int_iff, holds_signed_iff]
      constructor
      · rintro ⟨a, ha, hn⟩
        obtain ⟨hholds, hexact⟩ := ih.1 ha
        have hvalue : (signed sign operand p).integer? = some n.toInt :=
          integer?_signed_eq_some_iff.2 ⟨_, hexact, hn⟩
        exact ⟨⟨hholds, _, hvalue, isMachineInteger_toInt n⟩, hvalue⟩
      · rintro ⟨⟨hholds, -⟩, hvalue⟩
        obtain ⟨m, hexact, hn⟩ := integer?_signed_eq_some_iff.1 hvalue
        obtain ⟨a, rfl⟩ := hholds.exists_toInt hexact
        exact ⟨a, ih.2 ⟨hholds, hexact⟩, hn⟩
  | joined op left right p ihl ihr =>
      intro n
      rw [result, Operation.apply_eq_int_iff, holds_joined_iff]
      constructor
      · rintro ⟨a, b, ha, hb, hn⟩
        obtain ⟨hl, hexactl⟩ := ihl.1 ha
        obtain ⟨hr, hexactr⟩ := ihr.1 hb
        have hvalue : (joined op left right p).integer? = some n.toInt :=
          integer?_joined_eq_some_iff.2 ⟨_, _, hexactl, hexactr, hn⟩
        exact ⟨⟨hl, hr, _, hvalue, isMachineInteger_toInt n⟩, hvalue⟩
      · rintro ⟨⟨hl, hr, -⟩, hvalue⟩
        obtain ⟨m, m', hexactl, hexactr, hn⟩ := integer?_joined_eq_some_iff.1 hvalue
        obtain ⟨a, rfl⟩ := hl.exists_toInt hexactl
        obtain ⟨b, rfl⟩ := hr.exists_toInt hexactr
        exact ⟨a, b, ihl.2 ⟨hl, hexactl⟩, ihr.2 ⟨hr, hexactr⟩, hn⟩

/-! ### Whole trees -/

/-- A tree with an exact value has integers for its literals and divides nothing. -/
theorem integers_of_integer? {e : Expr} : ∀ {n : Int}, e.integer? = some n →
    (∀ v ∈ e.literals, v.isInt = true) ∧ .div ∉ e.operations := by
  induction e with
  | literal value p =>
      intro n h
      cases value with
      | float x => cases h
      | int a => simp [literals, operations, Number.isInt]
  | signed sign operand p ih =>
      intro n h
      obtain ⟨m, hm, -⟩ := integer?_signed_eq_some_iff.1 h
      exact ih hm
  | joined op left right p ihl ihr =>
      intro n h
      obtain ⟨a, b, ha, hb, hop⟩ := integer?_joined_eq_some_iff.1 h
      obtain ⟨hliterals, hdiv⟩ := ihl ha
      obtain ⟨hliterals', hdiv'⟩ := ihr hb
      refine ⟨List.forall_mem_append.2 ⟨hliterals, hliterals'⟩, ?_⟩
      have hne : .div ≠ op := by
        rintro rfl
        cases hop
      simp [operations, hne, hdiv, hdiv']

theorem mem_subtrees_trans {r s e : Expr} (hr : r ∈ s.subtrees) (hs : s ∈ e.subtrees) :
    r ∈ e.subtrees := by
  induction e with
  | literal value p =>
      rw [subtrees, List.mem_singleton] at hs
      rwa [← hs]
  | signed sign operand p ih =>
      rcases List.mem_cons.1 hs with rfl | hs
      · exact hr
      · exact List.mem_cons_of_mem _ (ih hs)
  | joined op left right p ihl ihr =>
      rcases List.mem_cons.1 hs with rfl | hs
      · exact hr
      · refine List.mem_cons_of_mem _ (List.mem_append.2 ?_)
        exact (List.mem_append.1 hs).imp ihl ihr

/-- A tree whose value is an integer has integers for the values of its subtrees. -/
theorem isInt_result_of_mem_subtrees {s e : Expr} (hs : s ∈ e.subtrees)
    (h : e.result.isInt = true) : s.result.isInt = true := by
  obtain ⟨n, hn⟩ := Number.isInt_iff.1 h
  have hholds : s.Holds := fun r hr => (result_eq_int_iff.1 hn).1 r (mem_subtrees_trans hr hs)
  obtain ⟨m, hm, hrange⟩ := hholds s s.mem_subtrees_self
  obtain ⟨value, rfl⟩ := hrange.exists_toInt
  exact Number.isInt_iff.2 ⟨value, result_eq_int_iff.2 ⟨hholds, hm⟩⟩

/-- **Integer results are exact, and doubles appear only where they must.**  A tree evaluates to an
integer exactly if its literals are integers, it divides nothing, and all of its subtrees have
exact values that a machine integer can hold; the integer is the exact value of the tree then.  So
a double among the literals, a division, or an exact value out of range anywhere in the tree makes
a double of it, and so does a subtree with a double for its value. -/
theorem evaluate_int_iff_exact (e : Expr) :
    (∀ n : Int64, e.evaluate.value = .int n ↔
      (∀ v ∈ e.literals, v.isInt = true) ∧ .div ∉ e.operations ∧
        (∀ s ∈ e.subtrees, ∃ m, s.integer? = some m ∧ IsMachineInteger m) ∧
        e.integer? = some n.toInt) ∧
    ((∃ v ∈ e.literals, v.isFloat = true) ∨ .div ∈ e.operations ∨
        (∃ s ∈ e.subtrees, ∃ m, s.integer? = some m ∧ ¬ IsMachineInteger m) →
      e.evaluate.value.isFloat = true) ∧
    ∀ s ∈ e.subtrees, s.evaluate.value.isFloat = true → e.evaluate.value.isFloat = true := by
  simp only [value_evaluate]
  refine ⟨fun n => ?_, ?_, ?_⟩
  · rw [result_eq_int_iff]
    constructor
    · rintro ⟨hholds, hexact⟩
      obtain ⟨hliterals, hdiv⟩ := integers_of_integer? hexact
      exact ⟨hliterals, hdiv, hholds, hexact⟩
    · rintro ⟨-, -, hholds, hexact⟩
      exact ⟨hholds, hexact⟩
  · intro hreason
    rw [← Number.not_isInt_iff]
    intro hint
    obtain ⟨n, hn⟩ := Number.isInt_iff.1 hint
    obtain ⟨hholds, hexact⟩ := result_eq_int_iff.1 hn
    obtain ⟨hliterals, hdiv⟩ := integers_of_integer? hexact
    rcases hreason with ⟨v, hv, hfloat⟩ | hdivides | ⟨s, hs, m, hm, hrange⟩
    · exact Number.not_isInt_iff.2 hfloat (hliterals v hv)
    · exact hdiv hdivides
    · obtain ⟨m', hm', hrange'⟩ := hholds s hs
      rw [hm, Option.some.injEq] at hm'
      exact hrange (hm' ▸ hrange')
  · intro s hs hfloat
    rw [← Number.not_isInt_iff] at hfloat ⊢
    exact fun hint => hfloat (isInt_result_of_mem_subtrees hs hint)

/-- The largest integer and one, less one: the exact value is in range again, but it was not all
the way. -/
example : (joined .sub (joined .add (literal (.int 9223372036854775807) ⟨0, 1, 0⟩)
    (literal (.int 1) ⟨20, 1, 20⟩) ⟨19, 1, 19⟩) (literal (.int 1) ⟨22, 1, 22⟩)
    ⟨21, 1, 21⟩).evaluate.value.isFloat = true := by
  decide

end Expr

end Reckoner
