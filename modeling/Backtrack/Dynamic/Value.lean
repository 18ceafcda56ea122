import Backtrack.Arith.Expression
import Backtrack.Lambda.Grammar

/-!
# Values of grammars that are put together at run time

A grammar that is read in while the program runs has parsers of one type only.  Its values are
texts, integers, lists, tuples, lambda terms and the binary functions that operators stand for.

The functions are data, so that a parser can yield them and two of them can be compared;
`BinaryFunction.apply` says what they compute.  `Value.render?` writes a value that holds none.
-/

namespace Backtrack.Dynamic

/-- The functions that an operator can stand for. -/
inductive BinaryFunction where
  /-- An operation on two integers. -/
  | arith (operator : Arith.Operator)
  /-- The tuple of both operands. -/
  | pair
  /-- The list of both operands. -/
  | list
  /-- The left operand. -/
  | left
  /-- The right operand. -/
  | right
  /-- The application of the left operand to the right one. -/
  | app
  deriving DecidableEq, Repr

/-- A value of a grammar that was put together at run time. -/
inductive Value where
  | none
  | str (text : Text)
  | int (number : Int)
  | list (items : List Value)
  | tuple (items : List Value)
  | var (name : Text)
  | lam (param : Text) (body : Value)
  | letIn (name : Text) (value body : Value)
  | app (fn arg : Value)
  | function (f : BinaryFunction)

/-- What a function computes; the operations on integers are for integers only. -/
def BinaryFunction.apply : BinaryFunction → Parser.Operation Value
  | .arith operator, .int x, .int y => .int <$> operator.apply x y
  | .arith _, _, _ => .error .illTyped
  | .pair, x, y => .ok (.tuple [x, y])
  | .list, x, y => .ok (.list [x, y])
  | .left, x, _ => .ok x
  | .right, _, y => .ok y
  | .app, x, y => .ok (.app x y)

namespace Value

/-- The operation that a value stands for; only a function stands for one. -/
def operation : Value → Parser.Operation Value
  | .function f => f.apply
  | _ => fun _ _ ↦ .error .illTyped

/-- A lambda term as a value. -/
def ofTerm : Lambda.Term → Value
  | .var name => .var name
  | .lam param body => .lam param (ofTerm body)
  | .letIn name value body => .letIn name (ofTerm value) (ofTerm body)
  | .app fn arg => .app (ofTerm fn) (ofTerm arg)

mutual

/-- Whether two values are the same. -/
def beq : Value → Value → Bool
  | .none, .none => true
  | .str text, .str text' => text == text'
  | .int number, .int number' => number == number'
  | .list items, .list items' => beqItems items items'
  | .tuple items, .tuple items' => beqItems items items'
  | .var name, .var name' => name == name'
  | .lam param body, .lam param' body' => param == param' && beq body body'
  | .letIn name value body, .letIn name' value' body' =>
    name == name' && beq value value' && beq body body'
  | .app fn arg, .app fn' arg' => beq fn fn' && beq arg arg'
  | .function f, .function f' => f == f'
  | _, _ => false

/-- Whether two lists of values are the same. -/
def beqItems : List Value → List Value → Bool
  | [], [] => true
  | item :: items, item' :: items' => beq item item' && beqItems items items'
  | _, _ => false

end

mutual

theorem eq_of_beq : (v w : Value) → beq v w = true → v = w
  | .none, w, h => by cases w <;> simp_all [beq]
  | .str _, w, h => by cases w <;> simp_all [beq]
  | .int _, w, h => by cases w <;> simp_all [beq]
  | .list items, w, h => by
    cases w <;> simp only [beq, Bool.false_eq_true] at h
    rw [eq_of_beqItems _ _ h]
  | .tuple items, w, h => by
    cases w <;> simp only [beq, Bool.false_eq_true] at h
    rw [eq_of_beqItems _ _ h]
  | .var _, w, h => by cases w <;> simp_all [beq]
  | .lam _ body, w, h => by
    cases w <;> simp only [beq, Bool.false_eq_true, Bool.and_eq_true, beq_iff_eq] at h
    rw [h.1, eq_of_beq _ _ h.2]
  | .letIn _ value body, w, h => by
    cases w <;> simp only [beq, Bool.false_eq_true, Bool.and_eq_true, beq_iff_eq] at h
    rw [h.1.1, eq_of_beq _ _ h.1.2, eq_of_beq _ _ h.2]
  | .app fn arg, w, h => by
    cases w <;> simp only [beq, Bool.false_eq_true, Bool.and_eq_true] at h
    rw [eq_of_beq _ _ h.1, eq_of_beq _ _ h.2]
  | .function _, w, h => by cases w <;> simp_all [beq]

theorem eq_of_beqItems : (vs ws : List Value) → beqItems vs ws = true → vs = ws
  | [], ws, h => by cases ws <;> simp_all [beqItems]
  | v :: vs, ws, h => by
    cases ws <;> simp only [beqItems, Bool.false_eq_true, Bool.and_eq_true] at h
    rw [eq_of_beq _ _ h.1, eq_of_beqItems _ _ h.2]

end

mutual

theorem beq_self : (v : Value) → beq v v = true
  | .none | .str _ | .int _ | .var _ | .function _ => by simp [beq]
  | .list items | .tuple items => by simp [beq, beqItems_self items]
  | .lam _ body => by simp [beq, beq_self body]
  | .letIn _ value body => by simp [beq, beq_self value, beq_self body]
  | .app fn arg => by simp [beq, beq_self fn, beq_self arg]

theorem beqItems_self : (vs : List Value) → beqItems vs vs = true
  | [] => rfl
  | v :: vs => by simp [beqItems, beq_self v, beqItems_self vs]

end

instance : DecidableEq Value := fun v w ↦
  decidable_of_iff (beq v w = true) ⟨eq_of_beq v w, fun h ↦ h ▸ beq_self v⟩

/-- A text in its quoted form. -/
def renderText (text : Text) : String := String.ofList (quoted text)

/-- The items of a tuple in parentheses; a single one is followed by a comma. -/
def renderTuple : List String → String
  | [item] => s!"({item},)"
  | items =>
    let inner := ", ".intercalate items
    s!"({inner})"

mutual

/-- A value as text, unless there is a function in it. -/
def render? : Value → Option String
  | .none => some "None"
  | .str text => some (renderText text)
  | .int number => some (toString number)
  | .list items => do
    let inner := ", ".intercalate (← renderItems? items)
    return s!"[{inner}]"
  | .tuple items => return renderTuple (← renderItems? items)
  | .var name =>
    let name := renderText name
    some s!"Var(name={name})"
  | .lam param body => do
    let param := renderText param
    let body ← render? body
    return s!"Lam(param={param}, body={body})"
  | .letIn name value body => do
    let name := renderText name
    let value ← render? value
    let body ← render? body
    return s!"Let(name={name}, value={value}, body={body})"
  | .app fn arg => do
    let fn ← render? fn
    let arg ← render? arg
    return s!"App(fn={fn}, arg={arg})"
  | .function _ => Option.none

/-- The texts of several values, unless there is a function in one of them. -/
def renderItems? : List Value → Option (List String)
  | [] => some []
  | item :: items => return (← render? item) :: (← renderItems? items)

end

end Value

end Backtrack.Dynamic
