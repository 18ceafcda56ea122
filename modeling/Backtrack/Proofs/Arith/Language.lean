import Backtrack.Arith.Expression
import Backtrack.Proofs.Lexicon
import Backtrack.Proofs.Decimal

/-!
# The language of integer expressions

The tokens of the calculator, the grammar over them with the tree that each derivation builds, and
the value of a tree.  An expression is terms with `+` and `-` between them, a term is powers with `*`
between them, and a power is factors with `^` between them.  The left-recursive rules group to the
left and the right-recursive one groups to the right.

The main statements are that the token parsers of the calculator read what the lexicon reads, so that
its rules are chains of phrases with operators of one level between them.
-/

namespace Backtrack.Arith

open Alphabet Backtrack.Parser

/-- What a text of the calculator consists of. -/
inductive Token where
  | number (value : Nat)
  | operator (op : Operator)
  | openParen
  | closeParen
  deriving DecidableEq, Repr

/-- The token that a character is by itself. -/
def mark? : Char → Option Token
  | '+' => some (.operator .add)
  | '-' => some (.operator .sub)
  | '*' => some (.operator .mul)
  | '^' => some (.operator .pow)
  | '(' => some .openParen
  | ')' => some .closeParen
  | _ => none

/-- Reads a run of digits that is as long as possible, or a single mark. -/
def readToken : Text → Option (Token × Text)
  | [] => none
  | c :: rest =>
    if isDecimal c then
      some (.number (decimalValue (c :: rest.takeWhile isDecimal)), rest.dropWhile isDecimal)
    else (mark? c).map fun token ↦ (token, rest)

theorem length_of_readToken {text rest : Text} {token : Token}
    (h : readToken text = some (token, rest)) : rest.length < text.length := by
  cases text with
  | nil => contradiction
  | cons c after =>
    by_cases hdigit : isDecimal c
    · simp only [readToken, if_pos hdigit, Option.some.injEq, Prod.mk.injEq] at h
      rw [← h.2]
      exact Nat.lt_succ_of_le (List.dropWhile_sublist _).length_le
    · simp only [readToken, if_neg hdigit, Option.map_eq_some_iff, Prod.mk.injEq] at h
      obtain ⟨_, _, _, hrest⟩ := h
      rw [← hrest]
      exact Nat.lt_succ_self _

def lexicon : Lexicon Token := ⟨readToken, length_of_readToken⟩

/-! ## The grammar -/

/-- An expression with its operators in place. -/
inductive Tree where
  | number (value : Nat)
  | binary (op : Operator) (left right : Tree)
  deriving DecidableEq, Repr

/-- The value of a tree: first the left operand, then the right one, then the operator. -/
def Tree.eval : Tree → Except Fault Int
  | .number value => .ok value
  | .binary op left right => do
    let x ← left.eval
    let y ← right.eval
    match op with
    | .add => pure (x + y)
    | .sub => pure (x - y)
    | .mul => pure (x * y)
    | .pow => truncatedPower x y

/-- The operators of the calculator compute the values of the trees. -/
theorem Tree.eval_binary (op : Operator) (left right : Tree) :
    (Tree.binary op left right).eval =
      left.eval >>= fun x ↦ right.eval >>= fun y ↦ op.apply x y := by
  cases op <;> rfl

/-- How tightly a phrase holds together. -/
inductive Level where
  | expression
  | term
  | power
  | factor
  deriving DecidableEq, Repr

/-- The phrases whose parts an operator joins. -/
def Operator.level : Operator → Level
  | .add => .expression
  | .sub => .expression
  | .mul => .term
  | .pow => .power

/-- The phrases of each level, with their trees. -/
inductive Derives : Level → List Token → Tree → Prop
  | number (value : Nat) : Derives .factor [.number value] (.number value)
  | paren {tokens : List Token} {tree : Tree} (inner : Derives .expression tokens tree) :
    Derives .factor (.openParen :: (tokens ++ [.closeParen])) tree
  | powerFactor {tokens : List Token} {tree : Tree} (factor : Derives .factor tokens tree) :
    Derives .power tokens tree
  | power {op : Operator} (hop : op.level = .power) {ts us : List Token} {left right : Tree}
    (hleft : Derives .factor ts left) (hright : Derives .power us right) :
    Derives .power (ts ++ .operator op :: us) (.binary op left right)
  | termPower {tokens : List Token} {tree : Tree} (power : Derives .power tokens tree) :
    Derives .term tokens tree
  | term {op : Operator} (hop : op.level = .term) {ts us : List Token} {left right : Tree}
    (hleft : Derives .term ts left) (hright : Derives .power us right) :
    Derives .term (ts ++ .operator op :: us) (.binary op left right)
  | expressionTerm {tokens : List Token} {tree : Tree} (term : Derives .term tokens tree) :
    Derives .expression tokens tree
  | expression {op : Operator} (hop : op.level = .expression) {ts us : List Token}
    {left right : Tree} (hleft : Derives .expression ts left) (hright : Derives .term us right) :
    Derives .expression (ts ++ .operator op :: us) (.binary op left right)

/-! ## The token parsers -/

theorem next_of_isDecimal {c : Char} (h : isDecimal c) (rest : Text) :
    lexicon.next (c :: rest) =
      some (.number (decimalValue (c :: rest.takeWhile isDecimal)),
        skipLayout (rest.dropWhile isDecimal)) := by
  apply Lexicon.next_of_read
  simp only [lexicon, readToken, if_pos h]

theorem next_of_not_isDecimal {c : Char} (h : ¬ isDecimal c) (rest : Text) :
    lexicon.next (c :: rest) = (mark? c).map fun token ↦ (token, skipLayout rest) := by
  simp only [Lexicon.next, lexicon, readToken, if_neg h, Option.map_map, Function.comp_def]

theorem mark?_injective {c d : Char} {token : Token} (hc : mark? c = some token)
    (hd : mark? d = some token) : c = d := by
  unfold mark? at hc hd
  split at hc <;> cases hc <;> split at hd <;> cases hd <;> rfl

theorem mark?_ne_number {c : Char} (value : Nat) : mark? c ≠ some (.number value) := by
  intro h
  unfold mark? at h
  split at h <;> cases h

/-- The value of a number. -/
def Token.number? : Token → Option Nat
  | .number value => some value
  | _ => none

/-- The operator that joins the parts of a phrase of this level. -/
def Token.operator? (level : Level) : Token → Option Operator
  | .operator op => if op.level = level then some op else none
  | _ => none

theorem natural_eq_accept : natural = lexicon.accept Token.number? := by
  funext inp
  unfold natural
  cases inp with
  | nil => rw [lexeme_of_ok nat_nil, Lexicon.accept_eq_nil (by simp [Lexicon.next_nil])]; rfl
  | cons c rest =>
    by_cases hdigit : isDecimal c
    · have hvalue (value : Nat) : Token.number? (.number value) = some value := rfl
      rw [lexeme_of_ok (nat_of_isDecimal hdigit rest),
        Lexicon.accept_of_next (next_of_isDecimal hdigit rest) (hvalue _)]
      rfl
    · rw [lexeme_of_ok (nat_of_not_isDecimal hdigit rest)]
      refine (Lexicon.accept_eq_nil fun token after hnext ↦ ?_).symm
      rw [next_of_not_isDecimal hdigit, Option.map_eq_some_iff] at hnext
      obtain ⟨_, hmark, hsame⟩ := hnext
      cases hsame
      cases token with
      | number value => exact absurd hmark (mark?_ne_number value)
      | operator op => rfl
      | openParen => rfl
      | closeParen => rfl

/-- The parser of a mark reads its token and no other. -/
theorem symbol_eq_exactly {c : Char} {token : Token} (hdigit : ¬ isDecimal c)
    (hmark : mark? c = some token) : symbol [c] = lexicon.exactly token [c] := by
  apply Lexicon.symbol_eq_exactly
  · intro rest
    simp only [lexicon, readToken, List.singleton_append, if_neg hdigit, hmark, Option.map_some]
  · intro text rest hread
    cases text with
    | nil => contradiction
    | cons d after =>
      by_cases hd : isDecimal d
      · simp only [lexicon, readToken, if_pos hd, Option.some.injEq, Prod.mk.injEq] at hread
        exact absurd (hread.1 ▸ hmark) (mark?_ne_number _)
      · simp only [lexicon, readToken, if_neg hd, Option.map_eq_some_iff, Prod.mk.injEq] at hread
        obtain ⟨_, hother, rfl, rfl⟩ := hread
        rw [mark?_injective hmark hother, List.singleton_append]

theorem openParen_eq_exactly : symbol "(".toList = lexicon.exactly .openParen ['('] :=
  symbol_eq_exactly (by decide) rfl

theorem closeParen_eq_exactly : symbol ")".toList = lexicon.exactly .closeParen [')'] :=
  symbol_eq_exactly (by decide) rfl

theorem replace_symbol_eq_exactly {c : Char} {op : Operator} (hdigit : ¬ isDecimal c)
    (hmark : mark? c = some (.operator op)) :
    replace (symbol [c]) op = lexicon.exactly (.operator op) op := by
  unfold replace
  rw [symbol_eq_exactly hdigit hmark, Lexicon.map_exactly]

/-- Reads the operators that join the parts of a phrase of this level. -/
def joining (level : Level) : Parser (Operation Int) :=
  (lexicon.accept (Token.operator? level)).map Operator.apply

theorem addop_eq_accept : addop = lexicon.accept (Token.operator? .expression) := by
  change anyOf [replace (symbol ['+']) Operator.add, replace (symbol ['-']) Operator.sub] = _
  rw [replace_symbol_eq_exactly (by decide) rfl, replace_symbol_eq_exactly (by decide) rfl]
  unfold Lexicon.exactly
  rw [Lexicon.anyOf_accept_pair]
  · congr 1
    funext token
    cases token with
    | operator op => cases op <;> rfl
    | _ => rfl
  · intro token
    cases token with
    | operator op => cases op <;> simp
    | _ => simp

theorem mulop_eq_accept : mulop = lexicon.accept (Token.operator? .term) := by
  change anyOf [replace (symbol ['*']) Operator.mul] = _
  rw [replace_symbol_eq_exactly (by decide) rfl]
  unfold Lexicon.exactly
  rw [Lexicon.anyOf_accept_singleton]
  congr 1
  funext token
  cases token with
  | operator op => cases op <;> rfl
  | _ => rfl

theorem expop_eq_accept : expop = lexicon.accept (Token.operator? .power) := by
  change anyOf [replace (symbol ['^']) Operator.pow] = _
  rw [replace_symbol_eq_exactly (by decide) rfl]
  unfold Lexicon.exactly
  rw [Lexicon.anyOf_accept_singleton]
  congr 1
  funext token
  cases token with
  | operator op => cases op <;> rfl
  | _ => rfl

theorem powerOf_eq (expr : Parser Int) : powerOf expr = chainr1 (factorOf expr) (joining .power) := by
  rw [powerOf, expop_eq_accept, joining]

theorem termOf_eq (expr : Parser Int) : termOf expr = chainl1 (powerOf expr) (joining .term) := by
  rw [termOf, mulop_eq_accept, joining]

theorem expressionOf_eq (expr : Parser Int) :
    expressionOf expr = chainl1 (termOf expr) (joining .expression) := by
  rw [expressionOf, addop_eq_accept, joining]

end Backtrack.Arith
