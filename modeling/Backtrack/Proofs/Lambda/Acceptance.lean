import Backtrack.Proofs.Definite
import Backtrack.Proofs.Lambda.Completeness
import Backtrack.Proofs.Verdict

/-!
# The texts that are lambda terms

The main statement is that the parser of terms accepts exactly the texts whose tokens can be derived,
and reports a parse error on all others.
-/

namespace Backtrack.Lambda

open Backtrack.Parser

variable {q : Parser Term} {bound : Nat}

/-- No fault at all. -/
def NoFault (_ : Fault) : Prop := False

theorem definite_variableName : Definite NoFault bound variableName := by
  rw [variableName_eq_accept]
  exact definite_accept lexicon Token.name?

theorem definite_lamOf (hq : Definite NoFault bound q) :
    Definite NoFault (bound + 1) (lamOf q) := by
  rw [lamOf_eq_bind]
  apply (definite_symbol (by decide)).bind_succ
  intro _
  apply definite_variableName.bind
  intro x
  apply (definite_symbol (by decide)).bind
  intro _
  exact hq.map (Term.lam x)

theorem definite_letOf (hq : Definite NoFault bound q) :
    Definite NoFault (bound + 1) (letOf q) := by
  rw [letOf_eq_bind]
  apply (definite_symbol (by decide)).bind_succ
  intro _
  apply definite_variableName.bind
  intro x
  apply (definite_symbol (by decide)).bind
  intro _
  apply hq.bind
  intro value
  apply (definite_symbol (by decide)).bind
  intro _
  exact hq.map (Term.letIn x value)

theorem definite_atomOf (hq : Definite NoFault bound q) :
    Definite NoFault (bound + 1) (atomOf q) := by
  apply definite_firstOf
  intro p hp
  simp only [List.mem_cons, List.not_mem_nil, or_false] at hp
  rcases hp with rfl | rfl | rfl | rfl
  · exact definite_lamOf hq
  · exact definite_letOf hq
  · exact definite_variableName.map Term.var
  · exact definite_middle (definite_symbol (by decide)) hq (definite_symbol (by decide))

theorem definite_exprOf (hq : Definite NoFault bound q) :
    Definite NoFault (bound + 1) (exprOf q) := by
  have hatom := definite_atomOf hq
  apply definite_chainl1 hatom
  · exact definite_chainStep_succeed hatom _
  · intro inp f rest h x y fault hfault
    cases eq_of_yields_single (succeed_apply _ inp) h
    contradiction

theorem definite_expr : Definite NoFault bound expr :=
  definite_recursive fun _ _ ↦ definite_exprOf

/-- The parser of terms is never abandoned. -/
theorem expr_eq_ok (inp : Text) : ∃ outcomes, expr inp = .ok outcomes := by
  rcases definite_expr.ok_or_error (Nat.lt_succ_self inp.length) with hrun | ⟨fault, -, hno⟩
  · exact hrun
  · exact hno.elim

/-- A text that is a term as a whole has tokens that derive the term. -/
theorem exists_derives_of_parseTerm {text : Text} {term : Term} (h : parseTerm text = .ok term) :
    ∃ tokens, lexicon.tokens? text = some tokens ∧ Derives .application tokens term := by
  obtain ⟨tokens, hreads, hderives⟩ := recognizes_expr _ _ _ (yields_of_run_eq_ok h)
  exact ⟨tokens, Lexicon.tokens?_eq_some_iff.mpr hreads, hderives⟩

/-- The parser of terms yields a term or reports a parse error. -/
theorem parseTerm_cases (text : Text) :
    (∃ term, parseTerm text = .ok term) ∨ ∃ error, parseTerm text = .error (.parse error) := by
  obtain ⟨outcomes, hrun⟩ := expr_eq_ok (skipLayout text)
  cases hcomplete : completeValues outcomes with
  | nil => exact .inr (run_of_incomplete leavesSuffixes_expr hrun hcomplete)
  | cons term others => exact .inl ⟨term, run_of_complete hrun hcomplete⟩

/-- The parser of terms accepts the texts whose tokens derive a term, and reports a parse error on
every other text. -/
theorem parseTerm_accepts (text : Text) :
    ((∃ term, parseTerm text = .ok term) ↔
      ∃ tokens term, lexicon.tokens? text = some tokens ∧ Derives .application tokens term) ∧
    ((∃ term, parseTerm text = .ok term) ∨ ∃ error, parseTerm text = .error (.parse error)) := by
  refine ⟨⟨?_, ?_⟩, parseTerm_cases text⟩
  · rintro ⟨term, hterm⟩
    obtain ⟨tokens, hlex, hderives⟩ := exists_derives_of_parseTerm hterm
    exact ⟨tokens, term, hlex, hderives⟩
  · rintro ⟨tokens, term, hlex, hderives⟩
    obtain ⟨other, hmaximal⟩ := hderives.hasMaximal
    exact ⟨other, parseTerm_of_maximal hlex hmaximal⟩

end Backtrack.Lambda
