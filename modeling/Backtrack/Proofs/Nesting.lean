import Backtrack.Proofs.Arith.Evaluation
import Backtrack.Proofs.Lambda.Acceptance
import Backtrack.Proofs.Locality

/-!
# How deep the grammars nest

The root rules of both grammars have local bodies, since the rule is used in parentheses and behind
the keywords and marks of a term only.  The main statement is that a run on any text ends, and needs
no more open activations of the root rule than the text has characters, and one: each of them is on
a shorter suffix of the text of the one around it, and more of them change nothing.
-/

namespace Backtrack

open Backtrack.Parser

/-! ## Integer expressions -/

namespace Arith

theorem local_factorOf : Local factorOf := by
  have hnumber : Local fun _ : Parser Int ↦ map (fun n : Nat ↦ (n : Int)) natural := local_const _
  have hparen : Local fun q : Parser Int ↦ middle (symbol "(".toList) q (symbol ")".toList) :=
    local_middle (consumes_symbol (by decide)) _
  exact local_firstOf (List.forall_mem_cons.mpr ⟨hnumber, List.forall_mem_singleton.mpr hparen⟩)

theorem local_powerOf : Local powerOf :=
  local_factorOf.chainr1 (fun _ ↦ leavesSuffixes_factorOf) (leavesSuffixes_expop.map _)

theorem local_termOf : Local termOf :=
  local_powerOf.chainl1 (fun _ ↦ leavesSuffixes_powerOf) (leavesSuffixes_mulop.map _)

theorem local_expressionOf : Local expressionOf :=
  local_termOf.chainl1 (fun _ ↦ leavesSuffixes_termOf) (leavesSuffixes_addop.map _)

end Arith

/-! ## Lambda terms -/

namespace Lambda

theorem local_lamOf : Local lamOf := by
  intro q q' inp hq hqq'
  rw [lamOf_eq_bind, lamOf_eq_bind]
  apply bind_congr_of_consumes (consumes_symbol (by decide))
  intro _
  apply (Alike.refl _).bind (closed_behind inp) leavesSuffixes_variableName
  intro x
  apply (Alike.refl _).bind (closed_behind inp) (leavesSuffixes_symbol _)
  intro _
  exact hqq'.map (Term.lam x)

theorem local_letOf : Local letOf := by
  intro q q' inp hq hqq'
  rw [letOf_eq_bind, letOf_eq_bind]
  apply bind_congr_of_consumes (consumes_symbol (by decide))
  intro _
  apply (Alike.refl _).bind (closed_behind inp) leavesSuffixes_variableName
  intro x
  apply (Alike.refl _).bind (closed_behind inp) (leavesSuffixes_symbol _)
  intro _
  apply hqq'.bind (closed_behind inp) hq
  intro value
  apply (Alike.refl _).bind (closed_behind inp) (leavesSuffixes_symbol _)
  intro _
  exact hqq'.map (Term.letIn x value)

theorem local_parenOf : Local parenOf := local_middle (consumes_symbol (by decide)) _

theorem local_atomOf : Local atomOf := by
  have hvar : Local fun _ : Parser Term ↦ var := local_const var
  have hatoms : ∀ body ∈ [lamOf, letOf, fun _ ↦ var, parenOf], Local body := by
    intro body hbody
    simp only [List.mem_cons, List.not_mem_nil, or_false] at hbody
    rcases hbody with rfl | rfl | rfl | rfl
    · exact local_lamOf
    · exact local_letOf
    · exact hvar
    · exact local_parenOf
  exact local_firstOf hatoms

theorem local_exprOf : Local exprOf :=
  local_atomOf.chainl1 (fun _ ↦ leavesSuffixes_atomOf) (leavesSuffixes_succeed _)

end Lambda

/-- A run of either grammar ends on every text, and needs no more open activations of the root rule
than the text has characters, and one. -/
theorem grammars_terminate (text : Text) :
    (BoundedNesting Arith.expressionOf text ∧
      ((∃ outcomes, Arith.expression text = .ok outcomes) ∨
        ∃ fault, Arith.expression text = .error fault ∧ Arith.IsPowerFault fault)) ∧
    (BoundedNesting Lambda.exprOf text ∧ ∃ outcomes, Lambda.expr text = .ok outcomes) := by
  have harith := Arith.expression_ok_or_error text
  have hlambda := Lambda.expr_eq_ok text
  have hexpression : recursive Arith.expressionOf text ≠ .error .nestingTooDeep := by
    intro hdeep
    rcases harith with ⟨outcomes, hrun⟩ | ⟨fault, hrun, hpower⟩
    · cases hrun.symm.trans hdeep
    · cases hrun.symm.trans hdeep
      cases hpower <;> contradiction
  have hexpr : recursive Lambda.exprOf text ≠ .error .nestingTooDeep := by
    intro hdeep
    obtain ⟨outcomes, hrun⟩ := hlambda
    cases hrun.symm.trans hdeep
  constructor
  · have hsuffix : KeepsSuffixes Arith.expressionOf := fun _ ↦ Arith.leavesSuffixes_expressionOf
    exact ⟨Arith.local_expressionOf.boundedNesting hsuffix hexpression, harith⟩
  · have hsuffix : KeepsSuffixes Lambda.exprOf := fun _ ↦ Lambda.leavesSuffixes_exprOf
    exact ⟨Lambda.local_exprOf.boundedNesting hsuffix hexpr, hlambda⟩

end Backtrack
