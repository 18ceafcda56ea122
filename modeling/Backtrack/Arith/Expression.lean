import Backtrack.Arith.Power
import Backtrack.Verdict

/-!
# Integer expressions

A calculator for `+`, `-`, `*`, `^` and parentheses.  `^` binds tightest and groups to the right,
`*` comes next, `+` and `-` bind loosest; these group to the left.  Values are computed while the
text is read, so an undefined power abandons the run.
-/

namespace Backtrack.Arith

open Backtrack.Parser

/-- The operators of the calculator. -/
inductive Operator where
  | add
  | sub
  | mul
  | pow
  deriving DecidableEq, Repr

/-- What an operator computes. -/
def Operator.apply : Operator → Operation Int
  | .add, x, y => .ok (x + y)
  | .sub, x, y => .ok (x - y)
  | .mul, x, y => .ok (x * y)
  | .pow, x, y => truncatedPower x y

/-- Reads `+` or `-`. -/
def addop : Parser Operator :=
  operators [(symbol "+".toList, .add), (symbol "-".toList, .sub)]

def mulop : Parser Operator := operators [(symbol "*".toList, .mul)]

def expop : Parser Operator := operators [(symbol "^".toList, .pow)]

/-- A number or an expression in parentheses, given the parser of expressions. -/
def factorOf (expr : Parser Int) : Parser Int :=
  firstOf [map (fun n : Nat ↦ (n : Int)) natural, middle (symbol "(".toList) expr (symbol ")".toList)]

/-- Factors with `^` between them. -/
def powerOf (expr : Parser Int) : Parser Int := chainr1 (factorOf expr) (expop.map Operator.apply)

/-- Powers with `*` between them. -/
def termOf (expr : Parser Int) : Parser Int := chainl1 (powerOf expr) (mulop.map Operator.apply)

/-- Terms with `+` and `-` between them. -/
def expressionOf (expr : Parser Int) : Parser Int :=
  chainl1 (termOf expr) (addop.map Operator.apply)

/-- An expression, reduced to its value. -/
def expression : Parser Int := recursive expressionOf

/-- A factor, reduced to its value. -/
def factor : Parser Int := factorOf expression

/-- A power of factors, reduced to its value. -/
def power : Parser Int := powerOf expression

/-- A product of powers, reduced to its value. -/
def term : Parser Int := termOf expression

/-- The value of a text that is an expression as a whole. -/
def evaluate (text : Text) : Except RunError Int := run expression text

end Backtrack.Arith
