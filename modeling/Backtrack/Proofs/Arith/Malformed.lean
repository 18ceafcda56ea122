import Backtrack.Proofs.Arith.Evaluation
import Backtrack.Proofs.Faults

/-!
# Texts that are no expressions

Since values are computed while a text is read, a fault can be met before it turns out that the text
is no expression.  The main statement is that a malformed text is reported as a parse error unless a
power that stands in it is undefined, although its base and its exponent have values; without `^` it
is always a parse error.

Conversely, an expression of undefined value raises its fault as soon as it is read, whether the
text behind it is well-formed or not.
-/

namespace Backtrack.Arith

open Alphabet Backtrack.Parser

/-- The text is an expression as a whole. -/
def IsExpression (text : Text) : Prop :=
  ∃ tokens tree, lexicon.tokens? text = some tokens ∧ Derives .expression tokens tree

/-- Behind some tokens of the text stands a power that ends in this fault, though its base and its
exponent have values. -/
def HasUndefinedPower (text : Text) (fault : Fault) : Prop :=
  ∃ before base exponent rest x y,
    lexicon.Reads text (before ++ (base ++ .operator .pow :: exponent)) rest ∧
    Computes .factor base x ∧ Computes .power exponent y ∧ truncatedPower x y = .error fault

theorem HasUndefinedPower.of_reads {text rest : Text} {tokens : List Token} {fault : Fault}
    (hreads : lexicon.Reads text tokens rest) (h : HasUndefinedPower rest fault) :
    HasUndefinedPower text fault := by
  obtain ⟨before, base, exponent, last, x, y, hpower, hvalues⟩ := h
  refine ⟨tokens ++ before, base, exponent, last, x, y, ?_, hvalues⟩
  rw [List.append_assoc]
  exact Lexicon.reads_append.mpr ⟨rest, hreads, hpower⟩

/-- What abandons a run of the calculator. -/
def abandoning : Cause lexicon where
  Explains inp fault := fault = .nestingTooDeep ∨ HasUndefinedPower inp fault
  of_reads hreads h := h.imp_right (HasUndefinedPower.of_reads hreads)

/-! ## Places in a text -/

section Places

variable {text rest : Text} {token : Token} {tokens : List Token}

theorem suffix_of_readToken (h : readToken text = some (token, rest)) : rest <:+ text := by
  cases text with
  | nil => contradiction
  | cons c after =>
    by_cases hdigit : isDecimal c
    · simp only [readToken, if_pos hdigit, Option.some.injEq, Prod.mk.injEq] at h
      rw [← h.2]
      exact (List.dropWhile_suffix _).trans (List.suffix_cons c after)
    · simp only [readToken, if_neg hdigit, Option.map_eq_some_iff, Prod.mk.injEq] at h
      obtain ⟨_, _, _, hrest⟩ := h
      rw [← hrest]
      exact List.suffix_cons c after

theorem suffix_of_reads (h : lexicon.Reads text tokens rest) : rest <:+ text := by
  induction tokens generalizing text with
  | nil =>
    have hsame : text = rest := Lexicon.reads_nil.mp h
    exact hsame ▸ List.suffix_refl text
  | cons token tokens ih =>
    obtain ⟨mid, hnext, hmid⟩ := h
    obtain ⟨after, hread, rfl⟩ := Lexicon.next_eq_some_iff.mp hnext
    have hafter : after <:+ text := suffix_of_readToken hread
    exact ((ih hmid).trans (skipLayout_suffix after)).trans hafter

theorem eq_caret_of_mark? {c : Char} (h : mark? c = some (.operator .pow)) : c = '^' :=
  mark?_injective h rfl

theorem caret_mem_of_next (h : lexicon.next text = some (.operator .pow, rest)) : '^' ∈ text := by
  cases text with
  | nil =>
    rw [Lexicon.next_nil] at h
    contradiction
  | cons c after =>
    by_cases hdigit : isDecimal c
    · rw [next_of_isDecimal hdigit] at h
      cases h
    · rw [next_of_not_isDecimal hdigit, Option.map_eq_some_iff] at h
      obtain ⟨token, hmark, hsame⟩ := h
      cases hsame
      rw [eq_caret_of_mark? hmark]
      exact List.mem_cons_self

theorem HasUndefinedPower.caret_mem {fault : Fault} (h : HasUndefinedPower text fault) :
    '^' ∈ text := by
  obtain ⟨before, base, exponent, last, x, y, hreads, -⟩ := h
  rw [← List.append_assoc] at hreads
  obtain ⟨mid, after, hbase, hcaret, -⟩ := reads_operator hreads
  exact (suffix_of_reads hbase).subset (caret_mem_of_next hcaret)

end Places

/-! ## Faults come from powers -/

section Origin

variable {q : Parser Int} {level : Level}

theorem explained_joining (level : Level) : Explained abandoning (joining level) :=
  (explained_accept _).map Operator.apply

theorem raisesNothing_joining (hlevel : level ≠ .power) :
    RaisesOnly (fun _ ↦ False) (joining level) := by
  intro inp f rest h x y fault hfault
  obtain ⟨-, -, op, hop, -, rfl⟩ := recognizes_joining level inp f rest h
  cases op with
  | pow => exact hlevel hop.symm
  | _ => contradiction

/-- The operands of an undefined power were read, so they are phrases with values. -/
theorem operatorsExplained_power (hq : lexicon.Recognizes q (Computes .expression)) :
    OperatorsExplained abandoning (factorOf q) (joining .power) := by
  intro start inp mid rest last f x y z fault hx hf hy hgroup hfault
  have hfactor := recognizes_factorOf hq
  have hjoining := recognizes_joining .power
  obtain ⟨base, hbase, hxBase⟩ := hfactor start x inp hx
  obtain ⟨_, hcaret, op, hop, rfl, rfl⟩ := hjoining inp f mid hf
  obtain ⟨first, hfirst, hyFirst⟩ := hfactor mid y rest hy
  have hchain : ∃ exponent, lexicon.Reads mid exponent last ∧ Computes .power exponent z := by
    apply Lexicon.reads_groupRight hfactor hjoining _ _ hfirst hyFirst hgroup
    · intro ts x hx
      exact hx.loosen .powerFactor
    · intro ts x us f ws y z hx hf hy hz
      exact computes_binary .power hx hf hy hz
  obtain ⟨exponent, hexponent, hzExponent⟩ := hchain
  cases op with
  | pow =>
    have hreads : lexicon.Reads start (base ++ ([.operator .pow] ++ exponent)) last :=
      Lexicon.reads_append.mpr ⟨inp, hbase, Lexicon.reads_append.mpr ⟨mid, hcaret, hexponent⟩⟩
    exact .inr ⟨[], base, exponent, last, x, z, hreads, hxBase, hzExponent, hfault⟩
  | _ => contradiction

section Levels

variable (hrecognizes : lexicon.Recognizes q (Computes .expression)) (hq : Explained abandoning q)

include hrecognizes hq

theorem explained_factorOf : Explained abandoning (factorOf q) := by
  have hnumber : Explained abandoning (map (fun n : Nat ↦ (n : Int)) natural) := by
    rw [natural_eq_accept]
    exact (explained_accept _).map _
  have hparen : Explained abandoning (middle (symbol "(".toList) q (symbol ")".toList)) := by
    rw [openParen_eq_exactly, closeParen_eq_exactly]
    exact hq.middle hrecognizes _ _ _ _
  exact explained_firstOf
    (List.forall_mem_cons.mpr ⟨hnumber, List.forall_mem_singleton.mpr hparen⟩)

theorem explained_powerOf : Explained abandoning (powerOf q) := by
  have hfactor := explained_factorOf hrecognizes hq
  rw [powerOf_eq]
  exact hfactor.chainr1 (recognizes_factorOf hrecognizes) (recognizes_joining .power)
    (explained_joining .power) (operatorsExplained_power hrecognizes)

theorem explained_termOf : Explained abandoning (termOf q) := by
  have hpower := explained_powerOf hrecognizes hq
  rw [termOf_eq]
  exact hpower.chainl1 (recognizes_powerOf hrecognizes) (recognizes_joining .term)
    (explained_joining .term) (raisesNothing_joining (by decide))

theorem explained_expressionOf : Explained abandoning (expressionOf q) := by
  have hterm := explained_termOf hrecognizes hq
  rw [expressionOf_eq]
  exact hterm.chainl1 (recognizes_termOf hrecognizes) (recognizes_joining .expression)
    (explained_joining .expression) (raisesNothing_joining (by decide))

end Levels

theorem explained_expression : Explained abandoning expression := by
  intro inp
  apply explained_nested fun _ ↦ Or.inl rfl
  intro n hn
  exact explained_expressionOf (Lexicon.recognizes_nested (fun _ ↦ recognizes_expressionOf) n) hn

/-- The nesting of a definite rule does not run out, so its fault is that of a power in the text. -/
theorem hasUndefinedPower_of_error {p : Parser Int} {inp : Text} {fault : Fault}
    (hdefinite : Definite IsPowerFault (inp.length + 1) p) (hexplained : Explained abandoning p)
    (h : p inp = .error fault) : HasUndefinedPower inp fault := by
  rcases hexplained inp fault h with rfl | hundefined
  · rcases hdefinite.ok_or_error (Nat.lt_succ_self _) with ⟨outcomes, hrun⟩ | ⟨fault, hrun, hpower⟩
    · cases hrun.symm.trans h
    · cases hrun.symm.trans h
      cases hpower <;> contradiction
  · exact hundefined

/-- A fault of the calculator is that of a power in the text. -/
theorem hasUndefinedPower_of_expression {inp : Text} {fault : Fault}
    (h : expression inp = .error fault) : HasUndefinedPower inp fault :=
  hasUndefinedPower_of_error definite_expression explained_expression h

end Origin

/-! ## Malformed texts -/

/-- An expression of undefined value raises its fault whatever stands behind it, unless the text
goes on with an operator that binds tighter. -/
theorem evaluate_of_undefined {text rest : Text} {tokens : List Token} {tree : Tree} {fault : Fault}
    (hreads : lexicon.Reads (skipLayout text) tokens rest) (h : Derives .expression tokens tree)
    (hfault : tree.eval = .error fault) (hpower : Ends .power rest) (hterm : Ends .term rest) :
    evaluate text = .error (.fault fault) := by
  have hfollows := follows_of_derives h (Nat.le_refl _) hreads hpower hterm
  apply run_of_error
  unfold expression
  rw [recursive_apply, hfollows, hfault]
  rfl

theorem evaluate_ne_ok_of_malformed {text : Text} (h : ¬ IsExpression text) (value : Int) :
    evaluate text ≠ .ok value := by
  intro hvalue
  obtain ⟨tokens, tree, hlex, hderives, -⟩ := exists_derives_of_evaluate_eq_ok hvalue
  exact h ⟨tokens, tree, hlex, hderives⟩

theorem truncatedPower_zero_of_neg {y : Int} (hy : y < 0) {exponent : Nat}
    (hround : Binary64.round? y.natAbs = some exponent) :
    truncatedPower 0 y = .error .divisionByZero := by
  have hzero : Binary64.round? (0 : Int).natAbs = some 0 := by decide +kernel
  simp only [truncatedPower, hzero, hround, if_neg (Int.not_le.mpr hy), if_true]

theorem not_isExpression_of_tokens?_eq_none {text : Text} (h : lexicon.tokens? text = none) :
    ¬ IsExpression text := by
  rintro ⟨tokens, tree, hlex, -⟩
  cases h.symm.trans hlex

/-- A malformed text is reported as a parse error, or ends in the fault of a power that stands in it
and is undefined. -/
theorem evaluate_malformed (text : Text) (h : ¬ IsExpression text) :
    (∃ error, evaluate text = .error (.parse error)) ∨
    ∃ fault, evaluate text = .error (.fault fault) ∧ HasUndefinedPower (skipLayout text) fault ∧
      '^' ∈ text := by
  rcases run_cases leavesSuffixes_expression text with ⟨value, hvalue⟩ | herror | ⟨fault, hrun, hfault⟩
  · exact absurd hvalue (evaluate_ne_ok_of_malformed h value)
  · exact .inl herror
  · have hpower := hasUndefinedPower_of_expression hrun
    have hcaret : '^' ∈ text := (skipLayout_suffix text).subset hpower.caret_mem
    exact .inr ⟨fault, hfault, hpower, hcaret⟩

/-- Without a power the report is a parse error. -/
theorem evaluate_malformed_sum :
    ¬ IsExpression "2+?".toList ∧ ∃ error, evaluate "2+?".toList = .error (.parse error) := by
  have hmalformed : ¬ IsExpression "2+?".toList :=
    not_isExpression_of_tokens?_eq_none (by decide +kernel)
  rcases evaluate_malformed _ hmalformed with herror | ⟨fault, -, -, hcaret⟩
  · exact ⟨hmalformed, herror⟩
  · exact absurd hcaret (by decide)

/-- The power of zero is met before the letter behind it. -/
theorem evaluate_malformed_eq_divisionByZero :
    ¬ IsExpression "0^(0-1)x".toList ∧
    evaluate "0^(0-1)x".toList = .error (.fault .divisionByZero) := by
  have hmalformed : ¬ IsExpression "0^(0-1)x".toList :=
    not_isExpression_of_tokens?_eq_none (by decide +kernel)
  have hreads : lexicon.Reads (skipLayout "0^(0-1)x".toList) [.number 0, .operator .pow, .openParen,
      .number 0, .operator .sub, .number 1, .closeParen] "x".toList :=
    ⟨"^(0-1)x".toList, by decide +kernel, "(0-1)x".toList, by decide +kernel,
      "0-1)x".toList, by decide +kernel, "-1)x".toList, by decide +kernel,
      "1)x".toList, by decide +kernel, ")x".toList, by decide +kernel,
      "x".toList, by decide +kernel, rfl⟩
  have hnumber (n : Nat) : Derives .term [.number n] (.number n) :=
    .termPower (.powerFactor (.number n))
  have hexponent : Derives .power [.openParen, .number 0, .operator .sub, .number 1, .closeParen]
      (.binary .sub (.number 0) (.number 1)) :=
    .powerFactor (.paren (.expression rfl (.expressionTerm (hnumber 0)) (hnumber 1)))
  have hpower : Derives .power [.number 0, .operator .pow, .openParen, .number 0, .operator .sub,
      .number 1, .closeParen] (.binary .pow (.number 0) (.binary .sub (.number 0) (.number 1))) :=
    .power rfl (.number 0) hexponent
  have hundefined : (Tree.binary .pow (.number 0) (.binary .sub (.number 0) (.number 1))).eval =
      .error .divisionByZero := by
    have hround : Binary64.round? (0 - 1 : Int).natAbs = some 1 := by decide +kernel
    simp only [Tree.eval, ok_bind, pure_bind]
    exact truncatedPower_zero_of_neg (by decide) hround
  have hends (level : Level) : Ends level "x".toList := by
    intro token after hnext
    have hnone : lexicon.next "x".toList = none := by decide +kernel
    cases hnone.symm.trans hnext
  refine ⟨hmalformed, ?_⟩
  exact evaluate_of_undefined hreads (.expressionTerm (.termPower hpower)) hundefined
    (hends .power) (hends .term)

end Backtrack.Arith
