import Backtrack.Parser.Repetition

/-!
# Operator chains

Operands with binary operators between them, folded from the left by `chainl1` and from the right
by `chainr1`.  A chain goes on as long as an operator and an operand after it can be read, is
committed to their first reading, and ends before a step that would read nothing.

A left chain applies each operator as soon as its right operand is read.  A right chain is read to
its end, on to a stack of operands and one of operators, before any operator is applied.
-/

namespace Backtrack.Parser

variable {α β : Type}

/-- A binary operation that may be undefined on its operands. -/
abbrev Operation (α : Type) := α → α → Except Fault α

/-- An operator and the operand after it, in their preferred reading. -/
def chainStep (p : Parser α) (op : Parser (Operation α)) : Parser (Operation α × α) :=
  first (bind op fun f ↦ map (fun y ↦ (f, y)) p)

/-- Goes on with a left chain whose steps so far amount to `acc`. -/
def foldSteps (step : Parser (Operation α × α)) (acc : α) (inp : Text) : Except Fault (α × Text) :=
  match step inp with
  | .error fault => .error fault
  | .ok [] => .ok (acc, inp)
  | .ok (((f, y), rest) :: _) =>
    if rest.length < inp.length then
      match f acc y with
      | .error fault => .error fault
      | .ok next => foldSteps step next rest
    else .ok (acc, inp)
termination_by inp.length

/-- One or more of `p` with `op` between each two, grouped to the left. -/
def chainl1 (p : Parser α) (op : Parser (Operation α)) : Parser α := fun inp ↦ do
  let outcomes ← p inp
  outcomes.mapM fun (x, rest) ↦ foldSteps (chainStep p op) x rest

/-- A right chain that is read and not yet folded: its operands and the operators between them, the
latest first. -/
structure PendingChain (α : Type) where
  operands : List α
  operators : List (Operation α)
  length_operands : operands.length = operators.length + 1

namespace PendingChain

/-- The chain of a single operand. -/
def start (x : α) : PendingChain α := ⟨[x], [], rfl⟩

/-- The chain with one more operator and the operand after it. -/
def push (chain : PendingChain α) (f : Operation α) (y : α) : PendingChain α :=
  ⟨y :: chain.operands, f :: chain.operators, congrArg (· + 1) chain.length_operands⟩

/-- Below the latest operand there are as many operands as operators. -/
theorem length_below {last : α} {operands : List α} {operators : List (Operation α)}
    (h : (last :: operands).length = operators.length + 1) : operands.length = operators.length :=
  Nat.succ.inj h

/-- Applies each operator to the operand before it and to the value of all that is behind it. -/
def unwind : (operands : List α) → (operators : List (Operation α)) →
    operands.length = operators.length → α → Except Fault α
  | [], [], _, value => .ok value
  | x :: operands, f :: operators, balanced, value => do
    let next ← f x value
    unwind operands operators (Nat.succ.inj balanced) next

/-- The value of the chain; its operators apply from the right end on. -/
def fold : PendingChain α → Except Fault α
  | ⟨last :: operands, operators, balanced⟩ =>
    unwind operands operators (length_below balanced) last

end PendingChain

/-- Goes on with a right chain of which `chain` is read so far. -/
def readSteps (step : Parser (Operation α × α)) (chain : PendingChain α) (inp : Text) :
    Except Fault (PendingChain α × Text) :=
  match step inp with
  | .error fault => .error fault
  | .ok [] => .ok (chain, inp)
  | .ok (((f, y), rest) :: _) =>
    if rest.length < inp.length then readSteps step (chain.push f y) rest else .ok (chain, inp)
termination_by inp.length

/-- One or more of `p` with `op` between each two, grouped to the right. -/
def chainr1 (p : Parser α) (op : Parser (Operation α)) : Parser α := fun inp ↦ do
  let outcomes ← p inp
  outcomes.mapM fun (x, rest) ↦ do
    let (chain, last) ← readSteps (chainStep p op) (.start x) rest
    let value ← chain.fold
    pure (value, last)

/-- An operator table: any of the tokens, each yielding the action beside it. -/
def operators (table : List (Parser β × α)) : Parser α :=
  anyOf (table.map fun (token, action) ↦ token.replace action)

end Backtrack.Parser
