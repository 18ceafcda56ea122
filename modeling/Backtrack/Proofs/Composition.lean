import Backtrack.Proofs.Arith.Evaluation
import Backtrack.Proofs.Lambda.Acceptance
import Backtrack.Proofs.Seam

/-!
# Accepted texts put together

A text that is accepted may end in a comment, so it is put into parentheses with a newline in front
of the closing one.  The main statement is that accepted texts put together in this way mean what they
mean by themselves: in both grammars parentheses change nothing, in the calculator an operator between
two parenthesized texts applies to their values, and two parenthesized terms side by side are an
application.

An accepted text consists of the tokens of a phrase.  These are still its tokens in front of the
newline, and the phrases are put together by the rules of the grammar.
-/

namespace Backtrack

open Alphabet Backtrack.Parser

/-- The text in parentheses, with a newline that ends the comment it may end in. -/
def parenthesized (text : Text) : Text := '(' :: (text ++ newline :: [')'])

theorem parenthesized_append (text rest : Text) :
    parenthesized text ++ rest = '(' :: (text ++ newline :: ')' :: rest) := by
  simp [parenthesized]

/-- Behind a parenthesis, whether it opens or closes, layout is skipped, but not in front of it. -/
theorem skipLayout_paren {c : Char} (hc : c = '(' ∨ c = ')') (rest : Text) :
    skipLayout (c :: rest) = c :: rest := by
  apply skipLayout_of_not_startsWithLayout
  rcases hc with rfl | rfl <;> exact Bool.false_ne_true

theorem skipLayout_parenthesized (text : Text) :
    skipLayout (parenthesized text) = parenthesized text := skipLayout_paren (.inl rfl) _

theorem skipLayout_parenthesized_append (text rest : Text) :
    skipLayout (parenthesized text ++ rest) = parenthesized text ++ rest := by
  rw [parenthesized_append, skipLayout_paren (.inl rfl)]

namespace Lexicon

variable {τ : Type} {L : Lexicon τ} {opening closing : τ} {text : Text} {tokens : List τ}

/-- Whitespace ends every token, and each parenthesis is a token wherever it stands. -/
structure Parenthesizes (L : Lexicon τ) (opening closing : τ) : Prop where
  endsAtSpace : EndsAtSpace L
  read_opening (rest : Text) : L.read ('(' :: rest) = some (opening, rest)
  read_closing (rest : Text) : L.read (')' :: rest) = some (closing, rest)

/-- The tokens of a text in parentheses are those of the text between two more. -/
theorem reads_parenthesized (hL : L.Parenthesizes opening closing)
    (hlex : L.tokens? text = some tokens) (rest : Text) :
    L.Reads (parenthesized text ++ rest) (opening :: (tokens ++ [closing])) (skipLayout rest) := by
  have hopen := next_of_read (hL.read_opening (text ++ newline :: ')' :: rest))
  have hclose := next_of_read (hL.read_closing rest)
  have hinner := reads_append_of_tokens? hL.endsAtSpace (separates_newline (')' :: rest)) hlex
  rw [skipLayout_of_isSpace (by decide), skipLayout_paren (.inr rfl)] at hinner
  rw [parenthesized_append]
  exact ⟨_, hopen, reads_append.mpr ⟨_, hinner, reads_singleton.mpr hclose⟩⟩

theorem reads_parenthesized_nil (hL : L.Parenthesizes opening closing)
    (hlex : L.tokens? text = some tokens) :
    L.Reads (parenthesized text) (opening :: (tokens ++ [closing])) [] := by
  have hreads := reads_parenthesized hL hlex []
  rw [List.append_nil, skipLayout_nil] at hreads
  exact hreads

theorem tokens?_parenthesized (hL : L.Parenthesizes opening closing)
    (hlex : L.tokens? text = some tokens) :
    L.tokens? (parenthesized text) = some (opening :: (tokens ++ [closing])) := by
  rw [tokens?_eq_some_iff, skipLayout_parenthesized]
  exact reads_parenthesized_nil hL hlex

end Lexicon

/-! ## Integer expressions -/

namespace Arith

variable {a b : Text} {m n : Int} {ts us : List Token} {left right : Tree}

/-- The character that an operator is written as. -/
def Operator.sign : Operator → Char
  | .add => '+'
  | .sub => '-'
  | .mul => '*'
  | .pow => '^'

theorem readToken_sign (op : Operator) (rest : Text) :
    readToken (op.sign :: rest) = some (.operator op, rest) := by
  cases op <;> rfl

theorem skipLayout_sign (op : Operator) (text : Text) :
    skipLayout (op.sign :: parenthesized text) = op.sign :: parenthesized text := by
  apply skipLayout_of_not_startsWithLayout
  cases op <;> exact Bool.false_ne_true

theorem parenthesizes_lexicon : lexicon.Parenthesizes .openParen .closeParen :=
  ⟨endsAtSpace_lexicon, fun _ ↦ rfl, fun _ ↦ rfl⟩

theorem tokens?_operator (ha : lexicon.tokens? a = some ts) (hb : lexicon.tokens? b = some us)
    (op : Operator) :
    lexicon.tokens? (parenthesized a ++ op.sign :: parenthesized b) =
      some (.openParen :: (ts ++ [.closeParen]) ++
        .operator op :: .openParen :: (us ++ [.closeParen])) := by
  have hleft := Lexicon.reads_parenthesized parenthesizes_lexicon ha (op.sign :: parenthesized b)
  have hright := Lexicon.reads_parenthesized_nil parenthesizes_lexicon hb
  have hsign : lexicon.next (op.sign :: parenthesized b) =
      some (.operator op, skipLayout (parenthesized b)) :=
    Lexicon.next_of_read (readToken_sign op (parenthesized b))
  rw [skipLayout_sign] at hleft
  rw [skipLayout_parenthesized] at hsign
  rw [Lexicon.tokens?_eq_some_iff, skipLayout_parenthesized_append]
  exact Lexicon.reads_append.mpr ⟨_, hleft, _, hsign, hright⟩

/-- Phrases in parentheses hold together as tightly as any operator asks for. -/
theorem derives_operator (hleft : Derives .factor ts left) (hright : Derives .factor us right)
    (op : Operator) : Derives .expression (ts ++ .operator op :: us) (.binary op left right) := by
  have hpower {tokens : List Token} {tree : Tree} (h : Derives .factor tokens tree) :
      Derives .power tokens tree := .powerFactor h
  have hterm {tokens : List Token} {tree : Tree} (h : Derives .factor tokens tree) :
      Derives .term tokens tree := .termPower (hpower h)
  cases op with
  | add => exact .expression rfl (.expressionTerm (hterm hleft)) (hterm hright)
  | sub => exact .expression rfl (.expressionTerm (hterm hleft)) (hterm hright)
  | mul => exact .expressionTerm (.term rfl (hterm hleft) (hpower hright))
  | pow => exact .expressionTerm (.termPower (.power rfl hleft (hpower hright)))

theorem evaluate_parenthesized (ha : evaluate a = .ok m) : evaluate (parenthesized a) = .ok m := by
  obtain ⟨ts, tree, hlex, hderives, heval⟩ := exists_derives_of_evaluate_eq_ok ha
  have htokens : lexicon.tokens? (parenthesized a) = some (.openParen :: (ts ++ [.closeParen])) :=
    Lexicon.tokens?_parenthesized parenthesizes_lexicon hlex
  rw [evaluate_of_derives htokens (.expressionTerm (.termPower (.powerFactor (.paren hderives)))),
    heval]
  rfl

/-- An operator between two texts in parentheses applies to their values. -/
theorem evaluate_operator (ha : evaluate a = .ok m) (hb : evaluate b = .ok n) (op : Operator) :
    evaluate (parenthesized a ++ op.sign :: parenthesized b) =
      (op.apply m n).mapError RunError.fault := by
  obtain ⟨ts, left, hleft, hleftDerives, hm⟩ := exists_derives_of_evaluate_eq_ok ha
  obtain ⟨us, right, hright, hrightDerives, hn⟩ := exists_derives_of_evaluate_eq_ok hb
  have hderives := derives_operator (.paren hleftDerives) (.paren hrightDerives) op
  calc
    evaluate (parenthesized a ++ op.sign :: parenthesized b) =
        (Tree.binary op left right).eval.mapError RunError.fault :=
      evaluate_of_derives (tokens?_operator hleft hright op) hderives
    _ = (op.apply m n).mapError RunError.fault := by simp only [Tree.eval_binary, hm, hn, ok_bind]

end Arith

/-! ## Lambda terms -/

namespace Lambda

variable {a b : Text} {s t : Term} {ts us : List Token}

/-- A text that is read as a term has the tokens of a maximal derivation of that term. -/
theorem exists_maximal_of_parseTerm (h : parseTerm a = .ok s) :
    ∃ tokens, lexicon.tokens? a = some tokens ∧ Maximal .whole tokens s := by
  obtain ⟨tokens, hlex, hderives⟩ := exists_derives_of_parseTerm h
  obtain ⟨other, hmaximal⟩ := hderives.hasMaximal
  have hother : parseTerm a = .ok other := parseTerm_of_maximal hlex hmaximal
  rw [h, Except.ok.injEq] at hother
  exact ⟨tokens, hlex, hother ▸ hmaximal⟩

theorem parenthesizes_lexicon : lexicon.Parenthesizes .openParen .closeParen :=
  ⟨endsAtSpace_lexicon, fun _ ↦ rfl, fun _ ↦ rfl⟩

theorem tokens?_application (ha : lexicon.tokens? a = some ts) (hb : lexicon.tokens? b = some us) :
    lexicon.tokens? (parenthesized a ++ parenthesized b) =
      some (.openParen :: (ts ++ [.closeParen]) ++ .openParen :: (us ++ [.closeParen])) := by
  have hfn := Lexicon.reads_parenthesized parenthesizes_lexicon ha (parenthesized b)
  have harg := Lexicon.reads_parenthesized_nil parenthesizes_lexicon hb
  rw [skipLayout_parenthesized] at hfn
  rw [Lexicon.tokens?_eq_some_iff, skipLayout_parenthesized_append]
  exact Lexicon.reads_append.mpr ⟨_, hfn, harg⟩

theorem parseTerm_parenthesized (ha : parseTerm a = .ok s) :
    parseTerm (parenthesized a) = .ok s := by
  obtain ⟨ts, hlex, hmaximal⟩ := exists_maximal_of_parseTerm ha
  have htokens : lexicon.tokens? (parenthesized a) = some (.openParen :: (ts ++ [.closeParen])) :=
    Lexicon.tokens?_parenthesized parenthesizes_lexicon hlex
  exact parseTerm_of_maximal htokens (.spine (.head (.paren hmaximal)))

/-- Two texts in parentheses side by side are the application of one term to the other. -/
theorem parseTerm_application (ha : parseTerm a = .ok s) (hb : parseTerm b = .ok t) :
    parseTerm (parenthesized a ++ parenthesized b) = .ok (.app s t) := by
  obtain ⟨ts, hfn, hfnMaximal⟩ := exists_maximal_of_parseTerm ha
  obtain ⟨us, harg, hargMaximal⟩ := exists_maximal_of_parseTerm hb
  exact parseTerm_of_maximal (tokens?_application hfn harg)
    (.spine (.app (.head (.paren hfnMaximal)) (.paren hargMaximal)))

end Lambda

/-- Accepted texts compose: in parentheses, with an operator between them, and side by side. -/
theorem accepted_texts_compose (a b : Text) :
    (∀ m, Arith.evaluate a = .ok m → Arith.evaluate (parenthesized a) = .ok m) ∧
    (∀ m n, Arith.evaluate a = .ok m → Arith.evaluate b = .ok n →
      Arith.evaluate (parenthesized a ++ '+' :: parenthesized b) = .ok (m + n) ∧
      Arith.evaluate (parenthesized a ++ '-' :: parenthesized b) = .ok (m - n) ∧
      Arith.evaluate (parenthesized a ++ '*' :: parenthesized b) = .ok (m * n) ∧
      Arith.evaluate (parenthesized a ++ '^' :: parenthesized b) =
        (Arith.truncatedPower m n).mapError RunError.fault) ∧
    (∀ s, Lambda.parseTerm a = .ok s → Lambda.parseTerm (parenthesized a) = .ok s) ∧
    ∀ s t, Lambda.parseTerm a = .ok s → Lambda.parseTerm b = .ok t →
      Lambda.parseTerm (parenthesized a ++ parenthesized b) = .ok (.app s t) := by
  refine ⟨?_, ?_, ?_, ?_⟩
  · intro m ha
    exact Arith.evaluate_parenthesized ha
  · intro m n ha hb
    have hvalue := Arith.evaluate_operator ha hb
    exact ⟨hvalue .add, hvalue .sub, hvalue .mul, hvalue .pow⟩
  · intro s ha
    exact Lambda.parseTerm_parenthesized ha
  · intro s t ha hb
    exact Lambda.parseTerm_application ha hb

/-- A difference and a power with a comment at its end, with each operator between them, and two
terms. -/
theorem accepted_texts_compose_comments :
    Arith.evaluate "(2^3 -- eight\n)".toList = .ok 8 ∧
    Arith.evaluate "(5 - 7\n)+(2^3 -- eight\n)".toList = .ok 6 ∧
    Arith.evaluate "(5 - 7\n)-(2^3 -- eight\n)".toList = .ok (-10) ∧
    Arith.evaluate "(5 - 7\n)*(2^3 -- eight\n)".toList = .ok (-16) ∧
    Arith.evaluate "(2^3 -- eight\n)^(5 - 7\n)".toList = .ok 0 ∧
    Lambda.parseTerm "(\\x -> x\n)(y -- free\n)".toList =
      .ok (.app (.lam "x".toList (.var "x".toList)) (.var "y".toList)) := by
  have hdifference : Arith.evaluate "5 - 7".toList = .ok (-2) :=
    eq_ok_of_toOption (by decide +kernel)
  have height : Arith.evaluate "2^3 -- eight".toList = .ok 8 :=
    eq_ok_of_toOption (by decide +kernel)
  have hidentity : Lambda.parseTerm "\\x -> x".toList = .ok (.lam "x".toList (.var "x".toList)) :=
    eq_ok_of_toOption (by decide +kernel)
  have hfree : Lambda.parseTerm "y -- free".toList = .ok (.var "y".toList) :=
    eq_ok_of_toOption (by decide +kernel)
  have hparen := (accepted_texts_compose _ []).1 _ height
  obtain ⟨hsum, hless, hproduct, -⟩ := (accepted_texts_compose _ _).2.1 _ _ hdifference height
  obtain ⟨-, -, -, hpower⟩ := (accepted_texts_compose _ _).2.1 _ _ height hdifference
  have hzero : Arith.truncatedPower 8 (-2) = .ok 0 := eq_ok_of_toOption (by decide +kernel)
  rw [hzero] at hpower
  have happlication := (accepted_texts_compose _ _).2.2.2 _ _ hidentity hfree
  exact ⟨hparen, hsum, hless, hproduct, hpower, happlication⟩

end Backtrack
