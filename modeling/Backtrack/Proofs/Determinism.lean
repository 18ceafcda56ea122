import Backtrack.Proofs.Arith.Malformed
import Backtrack.Proofs.Attempt
import Backtrack.Proofs.Lambda.Acceptance

/-!
# The shipped grammars are deterministic

Operator tables and character classes are built with a choice that lets every alternative contribute,
and a chain has an outcome for each outcome of its first operand.  Nevertheless no rule of the
shipped grammars ever has two outcomes.  The main statement says so for every rule on every text,
complete or not: an outcome is the only one, leaves less of the text and leaves no layout in front of
that.  A rule of the calculator can also be abandoned, but only by an undefined power in its text.

An attempt to read a whole text with either grammar is therefore never ambiguous.
-/

namespace Backtrack

variable {α : Type}

/-- The text was not read in more ways than one, and no record says so. -/
def Attempt.Unambiguous (report : Attempt α) : Prop :=
  (∀ result, report.result = .ok (.accepted result) →
    result.alternatives = 1 ∧ result.isAmbiguous = false) ∧
  ∀ count, .ambiguous count ∉ report.log

namespace Parser

variable {allowed : Fault → Prop} {p : Parser α} {inp text : Text} {outcomes : Outcomes α}

/-- The run has no outcome, or a single one that leaves less of the text and no layout in front of
what it leaves. -/
def Decided (p : Parser α) (inp : Text) : Prop :=
  p inp = .ok [] ∨
  ∃ value rest, p inp = .ok [(value, rest)] ∧ rest.length < inp.length ∧ ¬ startsWithLayout rest

theorem Definite.decided_or_error (h : Definite allowed (inp.length + 1) p) :
    Decided p inp ∨ ∃ fault, p inp = .error fault ∧ allowed fault := by
  rcases h inp (Nat.lt_succ_self _) with hnil | ⟨value, rest, hsingle, hlt, hskip⟩ | hfault
  · exact .inl (.inl hnil)
  · have hbare : ¬ startsWithLayout rest := by
      rw [← hskip]
      exact not_startsWithLayout_skipLayout rest
    exact .inl (.inr ⟨value, rest, hsingle, hlt, hbare⟩)
  · exact .inr hfault

/-- Without a second outcome there is no second complete one. -/
theorem unambiguous_of_ok (hp : LeavesSuffixes p) (hrun : p (skipLayout text) = .ok outcomes)
    (hle : outcomes.length ≤ 1) :
    (∃ verdict, (attempt p text).result = .ok verdict) ∧ (attempt p text).Unambiguous := by
  have hparse : parse p text = .ok outcomes := by rw [parse_apply, hrun]
  have hcount : (completeValues outcomes).length ≤ 1 := Nat.le_trans (List.length_filterMap_le _ _) hle
  cases hcomplete : completeValues outcomes with
  | nil =>
    rw [attempt_of_incomplete hparse hcomplete (leastLength_le_of_parse hp hparse)]
    refine ⟨⟨_, rfl⟩, ?_, ?_⟩
    · intro result haccepted
      cases haccepted
    · intro count hmem
      simp at hmem
  | cons value others =>
    rw [hcomplete] at hcount
    have hsingle : others = [] :=
      List.length_eq_zero_iff.mp (Nat.le_zero.mp (Nat.le_of_succ_le_succ hcount))
    subst hsingle
    rw [attempt_of_complete hparse hcomplete]
    refine ⟨⟨_, rfl⟩, ?_, ?_⟩
    · rintro result haccepted
      cases haccepted
      exact ⟨rfl, rfl⟩
    · intro count hmem
      simp at hmem

theorem Decided.unambiguous (hp : LeavesSuffixes p) (h : Decided p (skipLayout text)) :
    (∃ verdict, (attempt p text).result = .ok verdict) ∧ (attempt p text).Unambiguous := by
  rcases h with hnil | ⟨value, rest, hsingle, -⟩
  · exact unambiguous_of_ok hp hnil (Nat.zero_le 1)
  · exact unambiguous_of_ok hp hsingle (Nat.le_refl 1)

/-- An abandoned attempt says nothing on how the text can be read. -/
theorem unambiguous_of_error {fault : Fault} (h : parse p text = .error fault) :
    (attempt p text).Unambiguous := by
  rw [attempt_of_error h]
  refine ⟨?_, ?_⟩
  · intro result haccepted
    cases haccepted
  · intro count hmem
    simp at hmem

end Parser

open Backtrack.Parser

/-! ## Integer expressions -/

namespace Arith

/-- The rule of the calculator for this level of its grammar. -/
def Level.parser : Level → Parser Int
  | .factor => Arith.factor
  | .power => Arith.power
  | .term => Arith.term
  | .expression => Arith.expression

theorem Level.definite_parser (level : Level) (bound : Nat) :
    Definite IsPowerFault (bound + 1) level.parser := by
  cases level with
  | factor => exact definite_factorOf definite_expression
  | power => exact definite_powerOf definite_expression
  | term => exact definite_termOf definite_expression
  | expression => exact definite_expression

theorem Level.explained_parser (level : Level) : Explained abandoning level.parser := by
  cases level with
  | factor => exact explained_factorOf recognizes_expression explained_expression
  | power => exact explained_powerOf recognizes_expression explained_expression
  | term => exact explained_termOf recognizes_expression explained_expression
  | expression => exact explained_expression

theorem Level.decided_parser (level : Level) (inp : Text) :
    Decided level.parser inp ∨
      ∃ fault, level.parser inp = .error fault ∧ HasUndefinedPower inp fault := by
  have hdefinite := level.definite_parser inp.length
  rcases hdefinite.decided_or_error with hdecided | ⟨fault, hrun, -⟩
  · exact .inl hdecided
  · exact .inr ⟨fault, hrun, hasUndefinedPower_of_error hdefinite level.explained_parser hrun⟩

end Arith

/-! ## Lambda terms -/

namespace Lambda

/-- The rules that yield terms. -/
inductive Rule where
  | var
  | paren
  | lam
  | letTerm
  | atom
  | expr

def Rule.parser : Rule → Parser Term
  | .var => Lambda.var
  | .paren => Lambda.paren
  | .lam => Lambda.lam
  | .letTerm => Lambda.letTerm
  | .atom => Lambda.atom
  | .expr => Lambda.expr

theorem Rule.definite_parser (rule : Rule) (bound : Nat) :
    Definite NoFault (bound + 1) rule.parser := by
  cases rule with
  | var => exact definite_variableName.map Term.var
  | paren =>
    exact definite_middle (definite_symbol (by decide)) definite_expr (definite_symbol (by decide))
  | lam => exact definite_lamOf definite_expr
  | letTerm => exact definite_letOf definite_expr
  | atom => exact definite_atomOf definite_expr
  | expr => exact definite_expr

theorem decided_of_definite {p : Parser α} {inp : Text}
    (h : Definite NoFault (inp.length + 1) p) : Decided p inp := by
  rcases h.decided_or_error with hdecided | ⟨fault, -, hno⟩
  · exact hdecided
  · exact hno.elim

theorem Rule.decided_parser (rule : Rule) (inp : Text) : Decided rule.parser inp :=
  decided_of_definite (rule.definite_parser inp.length)

end Lambda

/-- No rule of either grammar has two outcomes on any text; its outcome leaves less of the text and no
layout in front of that.  A rule of the calculator is abandoned only if an undefined power stands in
its text; a rule of the grammar of terms never is.  No attempt on a whole text is ambiguous. -/
theorem grammars_deterministic :
    (∀ (level : Arith.Level) (inp : Text),
      Decided level.parser inp ∨
        ∃ fault, level.parser inp = .error fault ∧ Arith.HasUndefinedPower inp fault) ∧
    (∀ inp, Decided Lambda.variableName inp) ∧
    (∀ (rule : Lambda.Rule) (inp : Text), Decided rule.parser inp) ∧
    (∀ text, (attempt Arith.expression text).Unambiguous ∧
      ((∃ verdict, (attempt Arith.expression text).result = .ok verdict) ∨
        ∃ fault, (attempt Arith.expression text).result = .error fault ∧
          Arith.HasUndefinedPower (skipLayout text) fault)) ∧
    ∀ text, (attempt Lambda.expr text).Unambiguous ∧
      ∃ verdict, (attempt Lambda.expr text).result = .ok verdict := by
  refine ⟨Arith.Level.decided_parser, ?_, Lambda.Rule.decided_parser, ?_, ?_⟩
  · intro inp
    exact Lambda.decided_of_definite Lambda.definite_variableName
  · intro text
    have hexpression := Arith.Level.decided_parser .expression (skipLayout text)
    rcases hexpression with hdecided | ⟨fault, hrun, hpower⟩
    · have hattempt := hdecided.unambiguous Arith.leavesSuffixes_expression
      exact ⟨hattempt.2, .inl hattempt.1⟩
    · have hparse := (parse_apply Arith.expression text).trans hrun
      refine ⟨unambiguous_of_error hparse, .inr ⟨fault, ?_, hpower⟩⟩
      rw [attempt_of_error hparse]
  · intro text
    have hexpr := Lambda.Rule.decided_parser .expr (skipLayout text)
    exact (hexpr.unambiguous Lambda.leavesSuffixes_expr).symm

end Backtrack
