/-!
# Parsers as lists of outcomes

A parser maps a text to all the ways in which it can read a front part of it, preferred ones
first: each outcome is a value and the text left over.  No outcome means that the parser does not
match, more than one means that it is ambiguous.  A run can also be abandoned with a `Fault`, which
no alternative catches.

This module holds the parser type, its sequencing operations and the equations by which they run.

A rule that refers to itself is given by a `body` that takes the rule itself as a parser.
`nested body n` lets at most `n` activations of the rule be open at once.  A rule that reads
something before each use of itself never has more activations open than its text has characters,
and one for the end of the text: `recursive` allows just these.
-/

namespace Backtrack

/-- A text is the list of its characters; lengths and positions count characters. -/
abbrev Text := List Char

/-- Why a run was abandoned, as opposed to ending without an outcome. -/
inductive Fault where
  /-- A rule was run before it had a body. -/
  | undefinedRule (name : Option String)
  /-- A rule was looked up under a name that nothing is bound to. -/
  | unboundRule (name : String)
  /-- Zero was raised to a negative power. -/
  | divisionByZero
  /-- An operand was too large to be rounded to a binary64 number. -/
  | overflow
  /-- A value met an operation that is not for values of its kind. -/
  | illTyped
  /-- A character was looked up outside its text. -/
  | outsideText
  /-- More rules were active at once than the run allows. -/
  | nestingTooDeep
  deriving DecidableEq, Repr

/-- The name a rule is shown by; an empty name counts as none. -/
def displayName (name : Option String) : String :=
  match name with
  | none => "<anonymous>"
  | some name => if name = "" then "<anonymous>" else name

/-- What a reader is told about a fault. -/
def Fault.message : Fault → String
  | .undefinedRule name => s!"Forward parser {displayName name} was used before being defined."
  | .unboundRule name => s!"No rule is named {name}."
  | .divisionByZero => "Zero cannot be raised to a negative power."
  | .overflow => "An operand is out of range."
  | .illTyped => "An operation does not apply to this value."
  | .outsideText => "No character stands at this position."
  | .nestingTooDeep => "Too many rules are active at once."

section Runs

variable {ε α β : Type}

@[simp]
theorem pure_eq_ok (a : α) : (pure a : Except ε α) = .ok a := rfl

@[simp]
theorem ok_bind (a : α) (f : α → Except ε β) : (Except.ok a >>= f) = f a := rfl

@[simp]
theorem error_bind (e : ε) (f : α → Except ε β) : (Except.error e >>= f) = .error e := rfl

@[simp]
theorem ok_map (f : α → β) (a : α) : f <$> (Except.ok a : Except ε α) = .ok (f a) := rfl

@[simp]
theorem error_map (f : α → β) (e : ε) : f <$> (Except.error e : Except ε α) = .error e := rfl

end Runs

/-- Values read, each with the text left over, in order of preference. -/
abbrev Outcomes (α : Type) := List (α × Text)

/-- Reads a front part of a text in every way it can, or abandons the run. -/
def Parser (α : Type) := Text → Except Fault (Outcomes α)

/-- Runs `f` on each element in order and joins what it yields. -/
def gather {α β : Type} (f : α → Except Fault (List β)) (as : List α) : Except Fault (List β) :=
  List.flatten <$> as.mapM f

section Gather

variable {α β : Type} (f : α → Except Fault (List β))

@[simp]
theorem gather_nil : gather f [] = .ok [] := rfl

@[simp]
theorem gather_cons (a : α) (as : List α) :
    gather f (a :: as) = (do
      let front ← f a
      let back ← gather f as
      pure (front ++ back)) := by
  simp only [gather, List.mapM_cons]
  cases f a with
  | error fault => rfl
  | ok front => cases as.mapM f <;> simp

theorem gather_append (as bs : List α) :
    gather f (as ++ bs) = (do
      let front ← gather f as
      let back ← gather f bs
      pure (front ++ back)) := by
  induction as with
  | nil => cases h : gather f bs <;> simp [h]
  | cons a as ih =>
    simp only [List.cons_append, gather_cons, ih]
    cases f a <;> cases gather f as <;> cases gather f bs <;> simp

end Gather

namespace Parser

variable {α β : Type}

/-- Yields `value` and reads nothing. -/
def succeed (value : α) : Parser α := fun inp ↦ .ok [(value, inp)]

/-- Has no outcome. -/
def fail : Parser α := fun _ ↦ .ok []

/-- Abandons the run if `result` is a fault, and yields its value otherwise. -/
def ofExcept (result : Except Fault α) : Parser α := fun inp ↦ do
  let value ← result
  pure [(value, inp)]

/-- Continues every outcome of `p` with the parser that `f` chooses from its value. -/
def bind (p : Parser α) (f : α → Parser β) : Parser β := fun inp ↦ do
  let outcomes ← p inp
  gather (fun (value, rest) ↦ f value rest) outcomes

/-- Applies `f` to every value that `p` yields. -/
def map (f : α → β) (p : Parser α) : Parser β := fun inp ↦ do
  let outcomes ← p inp
  pure (outcomes.map fun (value, rest) ↦ (f value, rest))

/-- Yields `value` in place of every value of `p`. -/
def replace (p : Parser α) (value : β) : Parser β := map (fun _ ↦ value) p

instance : Monad Parser where
  pure := succeed
  bind := bind
  map := map

@[simp]
theorem pure_eq_succeed (value : α) : (Pure.pure value : Parser α) = succeed value := rfl

@[simp]
theorem monadBind_eq_bind (p : Parser α) (f : α → Parser β) : p >>= f = p.bind f := rfl

@[simp]
theorem functorMap_eq_map (f : α → β) (p : Parser α) : f <$> p = p.map f := rfl

@[simp]
theorem succeed_apply (value : α) (inp : Text) : succeed value inp = .ok [(value, inp)] := rfl

@[simp]
theorem fail_apply (inp : Text) : (fail : Parser α) inp = .ok [] := rfl

theorem bind_apply (p : Parser α) (f : α → Parser β) (inp : Text) :
    p.bind f inp = (p inp >>= gather fun (value, rest) ↦ f value rest) := rfl

theorem bind_of_ok {p : Parser α} {inp : Text} {outcomes : Outcomes α} (h : p inp = .ok outcomes)
    (f : α → Parser β) : p.bind f inp = gather (fun (value, rest) ↦ f value rest) outcomes := by
  simp [bind, h]

theorem bind_of_error {p : Parser α} {inp : Text} {fault : Fault} (h : p inp = .error fault)
    (f : α → Parser β) : p.bind f inp = .error fault := by
  simp [bind, h]

theorem map_of_ok {p : Parser α} {inp : Text} {outcomes : Outcomes α} (h : p inp = .ok outcomes)
    (f : α → β) : p.map f inp = .ok (outcomes.map fun (value, rest) ↦ (f value, rest)) := by
  simp [map, h]

theorem map_of_error {p : Parser α} {inp : Text} {fault : Fault} (h : p inp = .error fault)
    (f : α → β) : p.map f inp = .error fault := by
  simp [map, h]

/-! ## Rules that refer to themselves -/

/-- The rule with this body, with at most so many activations open at once. -/
def nested (body : Parser α → Parser α) : Nat → Parser α
  | 0 => fun _ ↦ .error .nestingTooDeep
  | n + 1 => fun inp ↦ body (nested body n) inp

/-- The rule with this body; it has to read something before each use of itself. -/
def recursive (body : Parser α → Parser α) : Parser α := fun inp ↦
  nested body (inp.length + 1) inp

@[simp]
theorem nested_zero (body : Parser α → Parser α) (inp : Text) :
    nested body 0 inp = .error .nestingTooDeep := rfl

@[simp]
theorem nested_succ (body : Parser α → Parser α) (n : Nat) (inp : Text) :
    nested body (n + 1) inp = body (nested body n) inp := rfl

theorem recursive_apply (body : Parser α → Parser α) (inp : Text) :
    recursive body inp = body (nested body inp.length) inp := rfl

end Parser

end Backtrack
