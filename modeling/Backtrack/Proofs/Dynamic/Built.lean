import Backtrack.Dynamic.RuleTable
import Backtrack.Proofs.Suffix

/-!
# Grammars that are put together by combinators

`Grammar.Built` says that a grammar is put together from the parsers of the library, from mentions
of rules, and from any other parsers that leave suffixes.  The rules may have built grammars as
their bodies, and so may refer to themselves and to each other.

The main statement is that every run of a built grammar that ends leaves suffixes of its text.  It
takes two inductions: one on the grammar, which assumes it of the rules, and one on the number of
rules that may be open, which gives it for the rules.
-/

namespace Backtrack.Dynamic

open Backtrack.Parser

variable {ρ α β γ : Type}

/-- The parsers that come with the library, those of the shipped grammars included. -/
inductive ReadyMade : {α : Type} → Parser α → Prop
  | succeed {α : Type} (value : α) : ReadyMade (.succeed value)
  | fail {α : Type} : ReadyMade (.fail : Parser α)
  | ofExcept {α : Type} (result : Except Fault α) : ReadyMade (.ofExcept result)
  | item : ReadyMade .item
  | satisfy (accepts : Char → Bool) : ReadyMade (.satisfy accepts)
  | char {text : Text} {p : Parser Char} (h : Grammar.char? text = .ok p) : ReadyMade p
  | string (text : Text) : ReadyMade (.string text)
  | eof : ReadyMade .eof
  | digit : ReadyMade .digit
  | lower : ReadyMade .lower
  | upper : ReadyMade .upper
  | letter : ReadyMade .letter
  | alphanumeric : ReadyMade .alphanumeric
  | takeWhile (accepts : Char → Bool) : ReadyMade (.takeWhile accepts)
  | word : ReadyMade .word
  | spaces : ReadyMade .spaces
  | commentLine {start : Text} {p : Parser Unit} (h : Grammar.commentLine? start = .ok p) :
    ReadyMade p
  | lineComment : ReadyMade .lineComment
  | layout : ReadyMade .layout
  | symbol (text : Text) : ReadyMade (.symbol text)
  | ident : ReadyMade .ident
  | identifier (keywords : List Text) : ReadyMade (.identifier keywords)
  | nat : ReadyMade .nat
  | int : ReadyMade .int
  | natural : ReadyMade .natural
  | integer : ReadyMade .integer
  | addop : ReadyMade Arith.addop
  | mulop : ReadyMade Arith.mulop
  | expop : ReadyMade Arith.expop
  | factor : ReadyMade Arith.factor
  | power : ReadyMade Arith.power
  | term : ReadyMade Arith.term
  | expression : ReadyMade Arith.expression
  | variableName : ReadyMade Lambda.variableName
  | var : ReadyMade Lambda.var
  | paren : ReadyMade Lambda.paren
  | lam : ReadyMade Lambda.lam
  | letTerm : ReadyMade Lambda.letTerm
  | atom : ReadyMade Lambda.atom
  | expr : ReadyMade Lambda.expr

/-- The grammars that are put together by the combinators.  A parser that is none of the library's
must leave suffixes. -/
inductive Grammar.Built : {α : Type} → Grammar ρ α → Prop
  | foreign {α : Type} {p : Parser α} (h : LeavesSuffixes p) : Built (.closed p)
  | readyMade {α : Type} {p : Parser α} (h : ReadyMade p) : Built (.closed p)
  | rule (mention : Rule) : Built (.rule mention)
  | bind {α β : Type} {g : Grammar ρ α} {f : α → Grammar ρ β} (hg : Built g)
    (hf : ∀ value, Built (f value)) : Built fun rules ↦ (g rules).bind fun value ↦ f value rules
  | map {α β : Type} {g : Grammar ρ α} (f : α → β) (hg : Built g) :
    Built fun rules ↦ (g rules).map f
  | replace {α β : Type} {g : Grammar ρ α} (value : β) (hg : Built g) :
    Built fun rules ↦ (g rules).replace value
  | anyOf {α : Type} {alternatives : List (Grammar ρ α)} {g : Grammar ρ α}
    (h : ∀ alternative ∈ alternatives, Built alternative) (hg : anyOf? alternatives = .ok g) :
    Built g
  | firstOf {α : Type} {alternatives : List (Grammar ρ α)} {g : Grammar ρ α}
    (h : ∀ alternative ∈ alternatives, Built alternative) (hg : firstOf? alternatives = .ok g) :
    Built g
  | first {α : Type} {g : Grammar ρ α} (hg : Built g) : Built fun rules ↦ (g rules).first
  | many {α : Type} {g : Grammar ρ α} (hg : Built g) : Built fun rules ↦ (g rules).many
  | many1 {α : Type} {g : Grammar ρ α} (hg : Built g) : Built fun rules ↦ (g rules).many1
  | greedy {α : Type} {g : Grammar ρ α} (hg : Built g) : Built fun rules ↦ (g rules).greedy
  | middle {α β γ : Type} {left : Grammar ρ β} {g : Grammar ρ α} {right : Grammar ρ γ}
    (hleft : Built left) (hg : Built g) (hright : Built right) :
    Built fun rules ↦ .middle (left rules) (g rules) (right rules)
  | sepBy1 {α β : Type} {g : Grammar ρ α} {sep : Grammar ρ β} (hg : Built g) (hsep : Built sep) :
    Built fun rules ↦ (g rules).sepBy1 (sep rules)
  | sepBy {α β : Type} {g : Grammar ρ α} {sep : Grammar ρ β} (hg : Built g) (hsep : Built sep) :
    Built fun rules ↦ (g rules).sepBy (sep rules)
  | chainl1 {α : Type} {g : Grammar ρ α} {op : Grammar ρ (Operation α)} (hg : Built g)
    (hop : Built op) : Built fun rules ↦ (g rules).chainl1 (op rules)
  | chainr1 {α : Type} {g : Grammar ρ α} {op : Grammar ρ (Operation α)} (hg : Built g)
    (hop : Built op) : Built fun rules ↦ (g rules).chainr1 (op rules)
  | operators {α β : Type} {table : List (Grammar ρ β × α)} {g : Grammar ρ α}
    (h : ∀ entry ∈ table, Built entry.1) (hg : operators? table = .ok g) : Built g
  | lexeme {α : Type} {g : Grammar ρ α} (hg : Built g) : Built fun rules ↦ (g rules).lexeme
  | parse {α : Type} {g : Grammar ρ α} (hg : Built g) : Built fun rules ↦ (g rules).parse

/-- The bodies of the rules and the grammars that names are bound to are built. -/
structure RuleTable.Built (table : RuleTable ρ) : Prop where
  declared {index : Nat} {name : Option String} {body : Grammar ρ ρ}
    (h : table.declarations[index]? = some ⟨name, some body⟩) : body.Built
  bound {name : String} {body : Grammar ρ ρ} (h : table.find? name = some (.grammar body)) :
    body.Built

/-! ## The builders that check their arguments -/

theorem eq_char_of_char? {text : Text} {p : Parser Char} (h : Grammar.char? text = .ok p) :
    ∃ c, p = .char c := by
  unfold Grammar.char? at h
  split at h
  · next c =>
    cases h
    exact ⟨c, rfl⟩
  · contradiction

theorem eq_commentLine_of_commentLine? {start : Text} {p : Parser Unit}
    (h : Grammar.commentLine? start = .ok p) : p = .commentLine start := by
  cases start with
  | nil => contradiction
  | cons c rest =>
    cases h
    rfl

theorem eq_of_ite_error {ε : Type} {bad : Prop} [Decidable bad] {e : ε} {a b : α}
    (h : (if bad then .error e else .ok a : Except ε α) = .ok b) : a = b := by
  by_cases hbad : bad
  · rw [if_pos hbad] at h
    contradiction
  · rw [if_neg hbad, Except.ok.injEq] at h
    exact h

/-! ## Suffixes -/

theorem ReadyMade.leavesSuffixes {p : Parser α} (h : ReadyMade p) : LeavesSuffixes p := by
  cases h with
  | succeed value => exact leavesSuffixes_succeed value
  | fail => exact leavesSuffixes_fail
  | ofExcept result => exact leavesSuffixes_ofExcept result
  | item => exact leavesSuffixes_item
  | satisfy accepts => exact leavesSuffixes_satisfy accepts
  | char h =>
    obtain ⟨c, rfl⟩ := eq_char_of_char? h
    exact leavesSuffixes_satisfy _
  | string text => exact leavesSuffixes_string text
  | eof => exact leavesSuffixes_eof
  | digit => exact leavesSuffixes_satisfy _
  | lower => exact leavesSuffixes_satisfy _
  | upper => exact leavesSuffixes_satisfy _
  | letter => exact leavesSuffixes_letter
  | alphanumeric => exact leavesSuffixes_alphanumeric
  | takeWhile accepts => exact leavesSuffixes_takeWhile accepts
  | word => exact leavesSuffixes_word
  | spaces => exact leavesSuffixes_spaces
  | commentLine h =>
    rw [eq_commentLine_of_commentLine? h]
    exact leavesSuffixes_commentLine _
  | lineComment => exact leavesSuffixes_commentLine _
  | layout => exact leavesSuffixes_layout
  | symbol text => exact leavesSuffixes_symbol text
  | ident => exact leavesSuffixes_ident
  | identifier keywords => exact leavesSuffixes_identifier keywords
  | nat => exact leavesSuffixes_nat
  | int => exact leavesSuffixes_int
  | natural => exact leavesSuffixes_nat.lexeme
  | integer => exact leavesSuffixes_int.lexeme
  | addop => exact Arith.leavesSuffixes_addop
  | mulop => exact Arith.leavesSuffixes_mulop
  | expop => exact Arith.leavesSuffixes_expop
  | factor => exact Arith.leavesSuffixes_factorOf Arith.leavesSuffixes_expression
  | power => exact Arith.leavesSuffixes_powerOf Arith.leavesSuffixes_expression
  | term => exact Arith.leavesSuffixes_termOf Arith.leavesSuffixes_expression
  | expression => exact Arith.leavesSuffixes_expression
  | variableName => exact Lambda.leavesSuffixes_variableName
  | var => exact Lambda.leavesSuffixes_variableName.map _
  | paren => exact Lambda.leavesSuffixes_parenOf Lambda.leavesSuffixes_expr
  | lam => exact Lambda.leavesSuffixes_lamOf Lambda.leavesSuffixes_expr
  | letTerm => exact Lambda.leavesSuffixes_letOf Lambda.leavesSuffixes_expr
  | atom => exact Lambda.leavesSuffixes_atomOf Lambda.leavesSuffixes_expr
  | expr => exact Lambda.leavesSuffixes_expr

/-- A built grammar leaves suffixes if the rules do. -/
theorem Grammar.Built.leavesSuffixes {rules : Rule → Parser ρ}
    (hrules : ∀ mention, LeavesSuffixes (rules mention)) {g : Grammar ρ α} (hg : g.Built) :
    LeavesSuffixes (g rules) := by
  induction hg with
  | foreign h => exact h
  | readyMade h => exact h.leavesSuffixes
  | rule mention => exact hrules mention
  | bind hg hf ihg ihf => exact ihg.bind ihf
  | map f hg ih => exact ih.map f
  | replace value hg ih => exact ih.replace value
  | anyOf h hg ih =>
    rw [← eq_of_ite_error hg]
    exact leavesSuffixes_anyOf (List.forall_mem_map.mpr ih)
  | firstOf h hg ih =>
    rw [← eq_of_ite_error hg]
    exact leavesSuffixes_firstOf (List.forall_mem_map.mpr ih)
  | first hg ih => exact ih.first
  | many hg ih => exact ih.many
  | many1 hg ih => exact ih.many1
  | greedy hg ih => exact ih.greedy
  | middle hleft hg hright ihleft ihg ihright => exact ihleft.middle ihg ihright
  | sepBy1 hg hsep ihg ihsep => exact ihg.sepBy1 ihsep
  | sepBy hg hsep ihg ihsep => exact ihg.sepBy ihsep
  | chainl1 hg hop ihg ihop => exact ihg.chainl1 ihop
  | chainr1 hg hop ihg ihop => exact ihg.chainr1 ihop
  | operators h hg ih =>
    rw [← eq_of_ite_error hg]
    exact leavesSuffixes_operators (List.forall_mem_map.mpr ih)
  | lexeme hg ih => exact ih.lexeme
  | parse hg ih => exact ih.parse

/-- A run that opens no rule ends in a fault, and every other run of a rule is one of its body. -/
theorem RuleTable.Built.leavesSuffixes_call {table : RuleTable ρ} (htable : table.Built)
    (depth : Nat) (mention : Rule) : LeavesSuffixes (table.call depth mention) := by
  induction depth generalizing mention with
  | zero => exact fun inp value rest h ↦ absurd h (not_yields_of_error rfl _)
  | succ depth ih =>
    intro inp value rest h
    cases mention with
    | declared index =>
      cases hfound : table.declarations[index]? with
      | none =>
        have hfault : table.call (depth + 1) (.declared index) inp =
            .error (.undefinedRule none) := by
          simp only [RuleTable.call, hfound]
        exact absurd h (not_yields_of_error hfault _)
      | some declaration =>
        obtain ⟨name, body⟩ := declaration
        cases body with
        | none =>
          have hfault : table.call (depth + 1) (.declared index) inp =
              .error (.undefinedRule name) := by
            simp only [RuleTable.call, hfound]
          exact absurd h (not_yields_of_error hfault _)
        | some body =>
          simp only [Yields, RuleTable.call, hfound] at h
          exact (htable.declared hfound).leavesSuffixes ih inp value rest h
    | named name =>
      cases hfound : table.find? name with
      | none =>
        have hfault : table.call (depth + 1) (.named name) inp = .error (.unboundRule name) := by
          simp only [RuleTable.call, hfound]
        exact absurd h (not_yields_of_error hfault _)
      | some binding =>
        simp only [Yields, RuleTable.call, hfound] at h
        cases binding with
        | declared index => exact ih (.declared index) inp value rest h
        | grammar body => exact (htable.bound hfound).leavesSuffixes ih inp value rest h

/-- Nothing, or the rule itself between parentheses. -/
def parentheses : Grammar Unit Unit := fun rules ↦ .anyOf
  [.middle (.string "(".toList) (rules (.named "parentheses")) (.string ")".toList), .succeed ()]

def parenthesesTable : RuleTable Unit :=
  (RuleTable.declare {} "parentheses" (some "parentheses")).define 0 parentheses

theorem built_parenthesesTable : parenthesesTable.Built where
  declared {index name body} h := by
    cases index with
    | succ index => contradiction
    | zero =>
      cases h
      have hparen : Grammar.Built fun rules : Rule → Parser Unit ↦
          middle (string "(".toList) (rules (.named "parentheses")) (string ")".toList) :=
        .middle (.readyMade (.string _)) (.rule _) (.readyMade (.string _))
      exact .anyOf (List.forall_mem_cons.mpr
        ⟨hparen, List.forall_mem_singleton.mpr (.readyMade (.succeed ()))⟩) rfl
  bound {name body} h := by
    change List.lookup name [("parentheses", Binding.declared 0)] = some (.grammar body) at h
    rw [List.lookup_cons] at h
    split at h <;> cases h

/-- A grammar that is put together by the combinators leaves suffixes of its text, on every run
that ends and with every number of rules that may be open at once, whatever its rules refer to. -/
theorem leavesSuffixes_of_built {table : RuleTable ρ} (htable : table.Built) {g : Grammar ρ α}
    (hg : g.Built) :
    (∀ depth, LeavesSuffixes (g (table.call depth))) ∧ LeavesSuffixes (table.parser g) := by
  have hcall (depth : Nat) : LeavesSuffixes (g (table.call depth)) :=
    hg.leavesSuffixes (htable.leavesSuffixes_call depth)
  exact ⟨hcall, fun inp ↦ hcall (table.depthFor inp) inp⟩

/-- A rule that refers to itself and is read in two ways. -/
theorem leavesSuffixes_of_built_parentheses :
    parenthesesTable.Built ∧ (Grammar.rule (.named "parentheses") : Grammar Unit Unit).Built ∧
    parenthesesTable.parser (.rule (.named "parentheses")) "(())x".toList =
      .ok [((), "x".toList), ((), "(())x".toList)] ∧
    "x".toList <:+ "(())x".toList := by
  have hrule : (Grammar.rule (.named "parentheses") : Grammar Unit Unit).Built := .rule _
  have hrun : parenthesesTable.parser (.rule (.named "parentheses")) "(())x".toList =
      .ok [((), "x".toList), ((), "(())x".toList)] := by
    rfl
  have hsuffixes := (leavesSuffixes_of_built built_parenthesesTable hrule).2
  exact ⟨built_parenthesesTable, hrule, hrun, hsuffixes _ () _ ⟨_, hrun, List.mem_cons_self⟩⟩

end Backtrack.Dynamic
