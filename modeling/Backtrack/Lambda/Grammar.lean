import Backtrack.Verdict

/-!
# Lambda terms and their grammar

Terms have named variables and local definitions.  They are written by the grammar

```
e ::= \x -> e
    | let x = e in e
    | x
    | ( e )
    | e e           -- application, groups to the left
```

The bodies of abstractions and local definitions reach as far right as they can.  `let` need not end
at a word boundary: `letx = y in x` defines `x`.  A word that starts with `let` and is no such
definition is still read as a variable.
-/

namespace Backtrack.Lambda

open Backtrack.Parser

/-- A term of the lambda calculus with `let`. -/
inductive Term where
  | var (name : Text)
  | lam (param : Text) (body : Term)
  | letIn (name : Text) (value body : Term)
  | app (fn arg : Term)
  deriving DecidableEq, Repr

/-- The words that are not names. -/
def keywords : List Text := ["in".toList, "let".toList]

/-- A name as a token. -/
def variableName : Parser Text := identifier keywords

def var : Parser Term := map Term.var variableName

/-- A term in parentheses, given the parser of terms. -/
def parenOf (expr : Parser Term) : Parser Term :=
  middle (symbol "(".toList) expr (symbol ")".toList)

/-- An abstraction. -/
def lamOf (expr : Parser Term) : Parser Term := do
  let _ ← symbol "\\".toList
  let x ← variableName
  let _ ← symbol "->".toList
  Term.lam x <$> expr

/-- A local definition. -/
def letOf (expr : Parser Term) : Parser Term := do
  let _ ← symbol "let".toList
  let x ← variableName
  let _ ← symbol "=".toList
  let value ← expr
  let _ ← symbol "in".toList
  Term.letIn x value <$> expr

/-- A term that is no application. -/
def atomOf (expr : Parser Term) : Parser Term :=
  firstOf [lamOf expr, letOf expr, var, parenOf expr]

/-- Atoms side by side, applied to one another from the left. -/
def exprOf (expr : Parser Term) : Parser Term :=
  chainl1 (atomOf expr) (succeed fun fn arg ↦ .ok (.app fn arg))

/-- A term. -/
def expr : Parser Term := recursive exprOf

def paren : Parser Term := parenOf expr

def lam : Parser Term := lamOf expr

def letTerm : Parser Term := letOf expr

def atom : Parser Term := atomOf expr

/-- The term that a text is as a whole. -/
def parseTerm (text : Text) : Except RunError Term := run expr text

end Backtrack.Lambda
