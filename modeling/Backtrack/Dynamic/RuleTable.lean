import Backtrack.Dynamic.Grammar

/-!
# Tables of rules

A rule can be declared first and defined later, so that rules can refer to each other in any order.
A name is bound to a declared rule or to a grammar, and can be bound anew.

Running a rule that is declared and not defined is a fault, and so is a name that is bound to
nothing.  `RuleTable.depthFor` bounds how many rules can be open at once on a text: with one more
open, some rule would have been entered twice with the same rest before it, and would be entered for
ever.
-/

namespace Backtrack.Dynamic

/-- A rule that was declared, and its body once that is known. -/
structure Declaration (ρ : Type) where
  name : Option String
  body : Option (Grammar ρ ρ)

/-- What a name is bound to. -/
inductive Binding (ρ : Type) where
  | declared (index : Nat)
  | grammar (body : Grammar ρ ρ)

/-- The grammar that a name stands for. -/
def Binding.toGrammar {ρ : Type} : Binding ρ → Grammar ρ ρ
  | .declared index => .rule (.declared index)
  | .grammar body => body

/-- The rules declared so far and the names bound so far, the latest binding first. -/
structure RuleTable (ρ : Type) where
  declarations : Array (Declaration ρ) := #[]
  bindings : List (String × Binding ρ) := []

namespace Declaration

variable {ρ : Type}

/-- The declared rule as text. -/
def describe (declaration : Declaration ρ) : String :=
  let name := displayName declaration.name
  if declaration.body.isSome then s!"<Forward {name}>" else s!"<Forward {name} (undefined)>"

end Declaration

namespace RuleTable

variable {ρ α : Type}

/-- What a name is bound to, if anything. -/
def find? (table : RuleTable ρ) (name : String) : Option (Binding ρ) := table.bindings.lookup name

/-- Binds a name, in place of what it was bound to before. -/
def bind (table : RuleTable ρ) (name : String) (binding : Binding ρ) : RuleTable ρ :=
  { table with bindings := (name, binding) :: table.bindings }

/-- Binds a name to a new rule without a body, which is shown by `shownAs`. -/
def declare (table : RuleTable ρ) (name : String) (shownAs : Option String) : RuleTable ρ :=
  let index := table.declarations.size
  bind { table with declarations := table.declarations.push ⟨shownAs, none⟩ } name (.declared index)

/-- Gives the rule at a place a body, in place of the one it had before. -/
def define (table : RuleTable ρ) (index : Nat) (body : Grammar ρ ρ) : RuleTable ρ :=
  { table with
    declarations := table.declarations.modify index fun declaration ↦
      { declaration with body := some body } }

/-- The rule that a name is bound to, as text; a grammar has none. -/
def describe? (table : RuleTable ρ) (binding : Binding ρ) : Option String :=
  match binding with
  | .declared index => table.declarations[index]?.map Declaration.describe
  | .grammar _ => none

/-- How many rules can be open at once on a text. -/
def depthFor (table : RuleTable ρ) (text : Text) : Nat :=
  (table.declarations.size + table.bindings.length) * (text.length + 1) + 1

/-- Runs a rule, with at most so many rules open at once. -/
def call (table : RuleTable ρ) : Nat → Rule → Parser ρ
  | 0, _ => fun _ ↦ .error .nestingTooDeep
  | depth + 1, .declared index => fun inp ↦
    match table.declarations[index]? with
    | none => .error (.undefinedRule none)
    | some ⟨name, none⟩ => .error (.undefinedRule name)
    | some ⟨_, some body⟩ => body (table.call depth) inp
  | depth + 1, .named name => fun inp ↦
    match table.find? name with
    | none => .error (.unboundRule name)
    | some binding => binding.toGrammar (table.call depth) inp

/-- The parser that a grammar is under the rules of this table. -/
def parser (table : RuleTable ρ) (grammar : Grammar ρ α) : Parser α := fun inp ↦
  grammar (table.call (table.depthFor inp)) inp

end RuleTable

end Backtrack.Dynamic
