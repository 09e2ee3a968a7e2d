/-
**A request for a tree and the expression itself are answered alike.**

A session answers an expression with its value, and the same expression behind a request with its
tree.  Each of the two answers comes of a path of its own, on which the text is cut into tokens and
read within the limit on nesting, and a fault is reported.  This module shows that the paths do not
part before the tree is there: either there is a fault, and both answers are its report, or there is
a tree, and one answer is the tree and the other its value.

An answer can be told for a report by what it says alone: every report has a capital letter in it
that no number and no tree is written with.

Main definitions:

* `Reckoner.Session.IsContent` — the texts that a session finds on a line;
* `Reckoner.Session.IsReport` — the answers that report a fault.

Main results:

* `Reckoner.Session.answer_expression`, `Reckoner.Session.answer_request` — the two paths;
* `Reckoner.Session.isReport_reply_iff` — a reply is a report exactly if there is a fault;
* `Reckoner.Session.answer_request_agrees` — **the two answers agree**.
-/

import Reckoner.Proofs.Literals
import Reckoner.Session

set_option relaxedAutoImplicit false
set_option autoImplicit false

namespace Reckoner

/-! ### The letter of reports -/

theorem Fault.mem_text (fault : Fault) : 'I' ∈ fault.text.toList := by
  have hheading : 'I' ∈ fault.heading.toList := by
    rw [heading]
    split <;> simp
  simp [text, hheading]

/-- Nothing in a tree is written with the letter of reports. -/
theorem Expr.not_mem_write (e : Expr) : ∀ (brackets : Nat) (after : List Char), 'I' ∉ after →
    'I' ∉ e.write brackets after := by
  induction e with
  | literal value p =>
      intro brackets after hafter
      have hvalue : 'I' ∉ value.chars := Number.not_mem_chars rfl (by decide) value
      simp [write, List.mem_replicate, hvalue, hafter]
  | signed sign operand p ih =>
      intro brackets after hafter
      have hoperand := ih 0 (')' :: after) (by simp [hafter])
      cases sign <;> simp [write, List.mem_replicate, Sign.symbol, hoperand]
  | joined op left right p ihl ihr =>
      intro brackets after hafter
      have hright := ihr 0 (')' :: after) (by simp [hafter])
      refine ihl (brackets + 1) _ ?_
      cases op <;> simp [Operation.symbol, hright]

namespace Session

/-! ### The two paths -/

/-- The text may stand on a line: it has no line feed in it and no carriage return at its end. -/
def IsContent (content : List Char) : Prop := '\n' ∉ content ∧ content.getLast? ≠ some '\r'

section Answers

variable {settings : Settings} {content feed : List Char}

/-- What may stand on a line is all that is left of the line without its end. -/
theorem IsContent.dropEndWhile_eq (h : IsContent content) (hfeed : feed = [] ∨ feed = ['\n']) :
    dropEndWhile (fun c => c == '\n' || c == '\r') (content ++ feed) = content := by
  have hkept : dropEndWhile (fun c => c == '\n' || c == '\r') content = content := by
    rcases List.eq_nil_or_concat content with rfl | ⟨start, c, rfl⟩
    · rfl
    · obtain ⟨hline, hend⟩ := h
      rw [List.concat_eq_append] at hline hend ⊢
      have hfeed : c ≠ '\n' := by
        rintro rfl
        simp at hline
      have hreturn : c ≠ '\r' := by
        rintro rfl
        simp at hend
      simp [dropEndWhile, hfeed, hreturn]
  rcases hfeed with rfl | rfl
  · rwa [List.append_nil]
  · have hdropped : dropEndWhile (fun c => c == '\n' || c == '\r') (content ++ ['\n']) =
        dropEndWhile (fun c => c == '\n' || c == '\r') content := by
      simp [dropEndWhile]
    rw [hdropped, hkept]

/-- **An expression is answered with its value**, or with the report of a fault. -/
theorem answer_expression (h : IsContent content) (hblank : content.all isBlank = false)
    (hrequest : ¬ treeRequest <+: content) (hfeed : feed = [] ∨ feed = ['\n']) :
    answer settings (content ++ feed) =
      reply Number.text (calculate settings (String.ofList content)).value := by
  rw [answer, h.dropEndWhile_eq hfeed]
  simp only [hblank, Bool.false_eq_true, if_false]
  rw [if_neg (by rwa [List.isPrefixOf_iff_prefix])]

/-- **A request is answered with a tree**, or with the report of a fault. -/
theorem answer_request (h : IsContent content) (hblank : content.all isBlank = false)
    (hfeed : feed = [] ∨ feed = ['\n']) :
    answer settings (treeRequest ++ content ++ feed) =
      reply Expr.text (readTree settings (String.ofList content)).value := by
  have hcontent : IsContent (treeRequest ++ content) := by
    obtain ⟨hline, hend⟩ := h
    constructor
    · simpa [treeRequest] using hline
    · cases content with
      | nil => cases hblank
      | cons c rest =>
          rwa [List.getLast?_append_of_ne_nil _ (List.cons_ne_nil _ _)]
  have hword : (treeRequest ++ content).all isBlank = false := by
    rw [List.all_append, hblank, Bool.and_false]
  rw [answer, hcontent.dropEndWhile_eq hfeed]
  simp only [hword, Bool.false_eq_true, if_false]
  rw [if_pos (List.isPrefixOf_iff_prefix.2 (List.prefix_append _ _)), List.drop_left]

end Answers

/-! ### Reports -/

/-- The answer reports a fault. -/
def IsReport (answer : String) : Prop := ∃ fault : Fault, answer = fault.text ++ "\n"

theorem IsReport.mem {answer : String} (h : IsReport answer) : 'I' ∈ answer.toList := by
  obtain ⟨fault, rfl⟩ := h
  rw [String.toList_append]
  exact List.mem_append_left _ fault.mem_text

/-- **A reply is a report exactly if there is a fault**, as long as no result is written with the
letter of reports. -/
theorem isReport_reply_iff {α : Type} {text : α → String} (h : ∀ a, 'I' ∉ (text a).toList)
    (result : Except Fault α) :
    IsReport (reply text result) ↔ ∃ fault, result = .error fault := by
  cases result with
  | error fault => exact iff_of_true ⟨fault, rfl⟩ ⟨fault, rfl⟩
  | ok a =>
      refine iff_of_false (fun hreport => ?_) (by simp)
      have hmem := hreport.mem
      rw [reply, String.toList_append, List.mem_append] at hmem
      rcases hmem with hmem | hmem
      · exact h a hmem
      · exact absurd hmem (by decide)

theorem not_mem_number (v : Number) : 'I' ∉ v.text.toList := by
  rw [Number.text, String.toList_ofList]
  exact Number.not_mem_chars rfl (by decide) v

theorem not_mem_tree (e : Expr) : 'I' ∉ e.text.toList := by
  rw [Expr.text, String.toList_ofList]
  exact e.not_mem_write 0 [] List.not_mem_nil

/-- A text fails to be read as a tree if it is not cut into tokens or if these make no tree. -/
theorem readTree_cases (settings : Settings) (text : String) :
    (∃ fault, (readTree settings text).value = .error fault ∧
      ((tokenize settings.source text).value = .error fault ∨
        ∃ tokens, (tokenize settings.source text).value = .ok tokens ∧
          (Expr.ofTokens settings.source settings.maxDepth tokens).value = .error fault)) ∨
    ∃ tokens t, (readTree settings text).value = .ok t ∧
      (tokenize settings.source text).value = .ok tokens ∧
      (Expr.ofTokens settings.source settings.maxDepth tokens).value = .ok t := by
  cases hcut : (tokenize settings.source text).value with
  | error fault =>
      left
      refine ⟨fault, ?_, Or.inl rfl⟩
      rw [value_readTree, hcut]
      rfl
  | ok tokens =>
      have hread := readTree_of_tokenize hcut
      cases htree : (Expr.ofTokens settings.source settings.maxDepth tokens).value with
      | error fault => exact Or.inl ⟨fault, hread.trans htree, Or.inr ⟨tokens, rfl, htree⟩⟩
      | ok t => exact Or.inr ⟨tokens, t, hread.trans htree, rfl, htree⟩

/-- **A request for a tree and the expression itself are answered alike.**  The expression may stand
on a line, which may end, is not blank and is no request itself.  Then one answer is a report
exactly if the other is; both are the report of the same fault then, of the first one that is found
on cutting the text into tokens and reading these.  Otherwise these are read as a tree, which is one
of the answers, and of which the other is the value. -/
theorem answer_request_agrees (settings : Settings) {content feed : List Char}
    (hcontent : IsContent content) (hblank : content.all isBlank = false)
    (hrequest : ¬ treeRequest <+: content) (hfeed : feed = [] ∨ feed = ['\n']) :
    (IsReport (answer settings (treeRequest ++ content ++ feed)) ↔
      IsReport (answer settings (content ++ feed))) ∧
    (IsReport (answer settings (content ++ feed)) → ∃ fault : Fault,
      ((tokenize settings.source (String.ofList content)).value = .error fault ∨
        ∃ tokens, (tokenize settings.source (String.ofList content)).value = .ok tokens ∧
          (Expr.ofTokens settings.source settings.maxDepth tokens).value = .error fault) ∧
      answer settings (content ++ feed) = fault.text ++ "\n" ∧
      answer settings (treeRequest ++ content ++ feed) = fault.text ++ "\n") ∧
    (¬ IsReport (answer settings (content ++ feed)) → ∃ tokens, ∃ t : Expr,
      (tokenize settings.source (String.ofList content)).value = .ok tokens ∧
      (Expr.ofTokens settings.source settings.maxDepth tokens).value = .ok t ∧
      answer settings (treeRequest ++ content ++ feed) = t.text ++ "\n" ∧
      answer settings (content ++ feed) = t.evaluate.value.text ++ "\n") := by
  rw [answer_request hcontent hblank hfeed, answer_expression hcontent hblank hrequest hfeed,
    isReport_reply_iff not_mem_tree, isReport_reply_iff not_mem_number, value_calculate]
  rcases readTree_cases settings (String.ofList content) with
    ⟨fault, hread, hwhy⟩ | ⟨tokens, t, hread, hcut, htree⟩
  · rw [hread]
    refine ⟨iff_of_true ⟨fault, rfl⟩ ⟨fault, rfl⟩, fun _ => ⟨fault, hwhy, rfl, rfl⟩, fun hno => ?_⟩
    exact absurd ⟨fault, rfl⟩ hno
  · rw [hread]
    have hno : ¬ ∃ fault, (Except.ok t.evaluate.value : Except Fault Number) = .error fault := by
      simp
    refine ⟨iff_of_false (by simp) hno, fun hfault => absurd hfault hno, fun _ => ?_⟩
    exact ⟨tokens, t, hcut, htree, rfl, rfl⟩

/-- Of a text without its second operand both answers are the same report; of a difference with a
product in it one is the tree and the other the value. -/
theorem answer_request_agrees_difference :
    IsReport (answer .standard " 1+\n".toList) ∧
    answer .standard ":ast 1+\n".toList = answer .standard " 1+\n".toList ∧
    answer .standard " 2-3*4".toList = "-10\n" ∧
    ∃ t : Expr, answer .standard ":ast 2-3*4".toList = t.text ++ "\n" ∧
      "-10\n" = t.evaluate.value.text ++ "\n" := by
  have hfault := @answer_request_agrees .standard " 1+".toList ['\n']
    ⟨by decide, by decide⟩ (by decide) (by decide) (Or.inr rfl)
  have htree := @answer_request_agrees .standard " 2-3*4".toList []
    ⟨by decide, by decide⟩ (by decide) (by decide) (Or.inl rfl)
  have hreport : IsReport (answer .standard " 1+\n".toList) :=
    ⟨⟨.ungrammatical .operandDue, "<stdin>", ⟨3, 1, 3⟩⟩, by decide +kernel⟩
  have hvalue : answer .standard " 2-3*4".toList = "-10\n" := by decide +kernel
  have hnone : ¬ IsReport (answer .standard " 2-3*4".toList) := by
    intro hreport
    have hmem := hreport.mem
    rw [hvalue] at hmem
    exact absurd hmem (by decide)
  obtain ⟨fault, -, hfirst, hsecond⟩ := hfault.2.1 hreport
  obtain ⟨tokens, t, -, -, htext, hresult⟩ := htree.2.2 hnone
  exact ⟨hreport, hsecond.trans hfirst.symm, hvalue, t, htext, hvalue.symm.trans hresult⟩

end Session

end Reckoner
