import Backtrack.Proofs.Arith.Language
import Backtrack.Proofs.Definite
import Backtrack.Proofs.Recognition
import Backtrack.Proofs.Verdict

/-!
# Evaluation computes the tree

The calculator computes values while it reads.  The main statement is that it is correct and complete
for its grammar: on a text whose tokens derive an expression it ends as the evaluation of the tree
ends, with the value or with the first fault, and on any other text it yields no value.

Soundness goes from the parsers to derivations by one lemma for each level.  Completeness is an
induction on the derivation; a phrase that groups to the left is read up to the point where its
chain goes on with the phrase's value.
-/

namespace Backtrack.Arith

open Backtrack.Parser

/-- The faults that a power can end in. -/
def IsPowerFault (fault : Fault) : Prop := fault = .divisionByZero ∨ fault = .overflow

theorem isPowerFault_of_truncatedPower {x y : Int} {fault : Fault}
    (h : truncatedPower x y = .error fault) : IsPowerFault fault := by
  unfold truncatedPower at h
  generalize Binary64.round? x.natAbs = base at h
  generalize Binary64.round? y.natAbs = exponent at h
  by_cases hy : 0 ≤ y
  · rw [if_pos hy] at h
    contradiction
  · rw [if_neg hy] at h
    cases base with
    | none => cases h; exact .inr rfl
    | some base =>
      cases exponent with
      | none => cases h; exact .inr rfl
      | some exponent =>
        simp only at h
        split at h
        · cases h; exact .inl rfl
        · split at h
          · contradiction
          · split at h <;> contradiction

theorem isPowerFault_of_apply {op : Operator} {x y : Int} {fault : Fault}
    (h : op.apply x y = .error fault) : IsPowerFault fault := by
  cases op with
  | pow =>
    simp only [Operator.apply] at h
    exact isPowerFault_of_truncatedPower h
  | _ => contradiction

/-! ## The shape of a run -/

section Shape

variable {bound : Nat} {q : Parser Int}

theorem raisesOnly_joining (level : Level) : RaisesOnly IsPowerFault (joining level) := by
  intro inp f rest h x y fault hfault
  obtain ⟨op, -, hop⟩ := yields_map h
  cases hop
  exact isPowerFault_of_apply hfault

theorem definite_joiningStep (level : Level) {p : Parser Int} (hp : Definite IsPowerFault bound p) :
    Definite IsPowerFault (bound + 1) (chainStep p (joining level)) :=
  definite_chainStep ((definite_accept lexicon _).map Operator.apply) hp

theorem definite_factorOf (hq : Definite IsPowerFault bound q) :
    Definite IsPowerFault (bound + 1) (factorOf q) := by
  apply definite_firstOf
  intro p hp
  simp only [List.mem_cons, List.not_mem_nil, or_false] at hp
  rcases hp with rfl | rfl
  · rw [natural_eq_accept]
    exact (definite_accept lexicon _).map _
  · exact definite_middle (definite_symbol (by decide)) hq (definite_symbol (by decide))

theorem definite_powerOf (hq : Definite IsPowerFault bound q) :
    Definite IsPowerFault (bound + 1) (powerOf q) := by
  have hfactor := definite_factorOf hq
  have hstep := definite_joiningStep .power (hfactor.mono (Nat.le_succ bound))
  rw [powerOf_eq]
  exact definite_chainr1 hfactor hstep (raisesOnly_joining .power)

theorem definite_termOf (hq : Definite IsPowerFault bound q) :
    Definite IsPowerFault (bound + 1) (termOf q) := by
  have hpower := definite_powerOf hq
  have hstep := definite_joiningStep .term (hpower.mono (Nat.le_succ bound))
  rw [termOf_eq]
  exact definite_chainl1 hpower hstep (raisesOnly_joining .term)

theorem definite_expressionOf (hq : Definite IsPowerFault bound q) :
    Definite IsPowerFault (bound + 1) (expressionOf q) := by
  have hterm := definite_termOf hq
  have hstep := definite_joiningStep .expression (hterm.mono (Nat.le_succ bound))
  rw [expressionOf_eq]
  exact definite_chainl1 hterm hstep (raisesOnly_joining .expression)

theorem definite_expression : Definite IsPowerFault bound expression :=
  definite_recursive fun _ _ ↦ definite_expressionOf

theorem expression_ok_or_error (inp : Text) :
    (∃ outcomes, expression inp = .ok outcomes) ∨
      ∃ fault, expression inp = .error fault ∧ IsPowerFault fault :=
  definite_expression.ok_or_error (Nat.lt_succ_self inp.length)

end Shape

/-! ## From outcomes to derivations -/

/-- The tokens are a phrase of this level with this value. -/
def Computes (level : Level) (tokens : List Token) (value : Int) : Prop :=
  ∃ tree, Derives level tokens tree ∧ tree.eval = .ok value

/-- The tokens are an operator of this level that computes `f`. -/
def IsOperator (level : Level) (tokens : List Token) (f : Operation Int) : Prop :=
  ∃ op : Operator, op.level = level ∧ tokens = [.operator op] ∧ f = op.apply

section Soundness

variable {q : Parser Int} {level tight left right : Level} {ts us ws : List Token} {x y z : Int}

theorem Computes.loosen
    (derives : ∀ {tokens tree}, Derives tight tokens tree → Derives level tokens tree)
    (h : Computes tight ts x) : Computes level ts x := by
  obtain ⟨tree, htree, hx⟩ := h
  exact ⟨tree, derives htree, hx⟩

/-- The operands and the operator of a phrase give the value of the phrase. -/
theorem computes_binary
    (derives : ∀ {op : Operator}, op.level = level → ∀ {ts us t u}, Derives left ts t →
      Derives right us u → Derives level (ts ++ .operator op :: us) (.binary op t u))
    {f : Operation Int} (hx : Computes left ts x) (hf : IsOperator level us f)
    (hy : Computes right ws y) (hz : f x y = .ok z) : Computes level (ts ++ (us ++ ws)) z := by
  obtain ⟨op, hop, rfl, rfl⟩ := hf
  obtain ⟨t, ht, htx⟩ := hx
  obtain ⟨u, hu, huy⟩ := hy
  refine ⟨.binary op t u, derives hop ht hu, ?_⟩
  simp only [Tree.eval_binary, htx, huy, ok_bind, hz]

theorem recognizes_joining (level : Level) :
    lexicon.Recognizes (joining level) (IsOperator level) := by
  apply (Lexicon.recognizes_accept _).map
  intro tokens op h
  obtain ⟨token, rfl, hop⟩ := h
  cases token with
  | operator other =>
    by_cases hlevel : other.level = level
    · simp only [Token.operator?, if_pos hlevel, Option.some.injEq] at hop
      rw [← hop]
      exact ⟨other, hlevel, rfl, rfl⟩
    · simp [Token.operator?, hlevel] at hop
  | _ => contradiction

theorem recognizes_factorOf (hq : lexicon.Recognizes q (Computes .expression)) :
    lexicon.Recognizes (factorOf q) (Computes .factor) := by
  apply Lexicon.recognizes_firstOf
  intro p hp
  simp only [List.mem_cons, List.not_mem_nil, or_false] at hp
  rcases hp with rfl | rfl
  · rw [natural_eq_accept]
    apply (Lexicon.recognizes_accept _).map
    rintro tokens value ⟨token, rfl, htoken⟩
    cases token with
    | number n => cases htoken; exact ⟨.number value, .number value, rfl⟩
    | _ => contradiction
  · rw [openParen_eq_exactly, closeParen_eq_exactly]
    apply (Lexicon.recognizes_middle hq _ _ _ _).mono
    rintro tokens value ⟨inner, rfl, tree, hinner, hvalue⟩
    exact ⟨tree, .paren hinner, hvalue⟩

theorem recognizes_powerOf (hq : lexicon.Recognizes q (Computes .expression)) :
    lexicon.Recognizes (powerOf q) (Computes .power) := by
  rw [powerOf_eq]
  apply Lexicon.recognizes_chainr1 (recognizes_factorOf hq) (recognizes_joining .power)
  · intro ts x hx
    exact hx.loosen .powerFactor
  · intro ts x us f ws y z hx hf hy hz
    exact computes_binary .power hx hf hy hz

theorem recognizes_termOf (hq : lexicon.Recognizes q (Computes .expression)) :
    lexicon.Recognizes (termOf q) (Computes .term) := by
  rw [termOf_eq]
  apply Lexicon.recognizes_chainl1 (recognizes_powerOf hq) (recognizes_joining .term)
  · intro ts x hx
    exact hx.loosen .termPower
  · intro ts x us f ws y z hx hf hy hz
    exact computes_binary .term hx hf hy hz

theorem recognizes_expressionOf (hq : lexicon.Recognizes q (Computes .expression)) :
    lexicon.Recognizes (expressionOf q) (Computes .expression) := by
  rw [expressionOf_eq]
  apply Lexicon.recognizes_chainl1 (recognizes_termOf hq) (recognizes_joining .expression)
  · intro ts x hx
    exact hx.loosen .expressionTerm
  · intro ts x us f ws y z hx hf hy hz
    exact computes_binary .expression hx hf hy hz

theorem recognizes_expression : lexicon.Recognizes expression (Computes .expression) :=
  Lexicon.recognizes_recursive (Lexicon.recognizes_nested fun _ ↦ recognizes_expressionOf)

end Soundness

/-! ## From derivations to outcomes -/

section Completeness

variable {q : Parser Int} {level : Level} {tokens : List Token} {tree : Tree}
  {inp mid rest : Text}

/-- A phrase of this level does not go on with an operator here. -/
def Ends (level : Level) (rest : Text) : Prop :=
  ∀ token after, lexicon.next rest = some (token, after) → Token.operator? level token = none

theorem ends_of_next {token : Token} (h : lexicon.next inp = some (token, rest))
    (htoken : Token.operator? level token = none) : Ends level inp := by
  intro other after hother
  rw [(Lexicon.next_unique h hother).1, htoken]

theorem ends_of_operator {op : Operator} (h : lexicon.next inp = some (.operator op, rest))
    (hop : op.level ≠ level) : Ends level inp := ends_of_next h (if_neg hop)

theorem ends_nil : Ends level [] := by
  intro token after h
  rw [Lexicon.next_nil] at h
  contradiction

theorem joining_of_ends (h : Ends level rest) : joining level rest = .ok [] :=
  map_of_nil (Lexicon.accept_eq_nil h) _

theorem joining_of_next {op : Operator} (h : lexicon.next inp = some (.operator op, rest))
    (hop : op.level = level) : joining level inp = .ok [(op.apply, rest)] :=
  map_of_single (Lexicon.accept_of_next h (if_pos hop)) _

theorem factorOf_number {value : Nat} (h : lexicon.next inp = some (.number value, rest)) :
    factorOf q inp = .ok [((value : Int), rest)] := by
  have hnatural : natural inp = .ok [(value, rest)] := by
    rw [natural_eq_accept]
    exact Lexicon.accept_of_next h rfl
  exact firstOf_cons_of_cons (map_of_single hnatural _) _

theorem factorOf_paren {result : Except Fault Int} {close : Text}
    (hopen : lexicon.next inp = some (.openParen, mid)) (hq : q mid = only result close)
    (hclose : lexicon.next close = some (.closeParen, rest)) :
    factorOf q inp = only result rest := by
  have hnatural : natural inp = .ok [] := by
    rw [natural_eq_accept]
    apply Lexicon.accept_eq_nil
    intro token after h
    rw [(Lexicon.next_unique hopen h).1]
    rfl
  unfold factorOf
  rw [firstOf_cons_of_nil (map_of_nil hnatural _)]
  apply firstOf_singleton_of_only
  rw [openParen_eq_exactly, closeParen_eq_exactly]
  exact middle_of_only (Lexicon.exactly_of_next hopen _) hq (Lexicon.exactly_of_next hclose _)

/-- How the parser of a level runs on a text that starts with a phrase of the level.  A phrase that
groups to the left is read up to the place where its chain can go on. -/
def Follows (q : Parser Int) (tree : Tree) (inp rest : Text) : Level → Prop
  | .factor => factorOf q inp = only tree.eval rest
  | .power => Ends .power rest → powerOf q inp = only tree.eval rest
  | .term =>
    Ends .power rest →
      termOf q inp = chainFrom (powerOf q) (joining .term) tree.eval rest
  | .expression =>
    Ends .power rest → Ends .term rest →
      expressionOf q inp = chainFrom (termOf q) (joining .expression) tree.eval rest

theorem Follows.term_of_ends (h : Follows q tree inp rest .term) (hpower : Ends .power rest)
    (hterm : Ends .term rest) : termOf q inp = only tree.eval rest := by
  rw [h hpower]
  exact chainFrom_of_nil (chainStep_of_nil (joining_of_ends hterm))

theorem Follows.expression_of_ends (h : Follows q tree inp rest .expression)
    (hends : ∀ level, Ends level rest) : expressionOf q inp = only tree.eval rest := by
  rw [h (hends .power) (hends .term)]
  exact chainFrom_of_nil (chainStep_of_nil (joining_of_ends (hends .expression)))

theorem follows_power {bound : Nat} {left right : Tree} {op : Operator} {after : Text}
    (hq : Definite IsPowerFault bound q) (hop : op.level = .power)
    (hleft : Follows q left inp mid .factor) (hright : Follows q right after rest .power)
    (hnext : lexicon.next mid = some (.operator op, after)) (hafter : after.length < bound + 1) :
    Follows q (.binary op left right) inp rest .power := by
  intro hends
  have hrest := hright hends
  rw [powerOf_eq] at hrest ⊢
  simp only [Follows] at hleft
  rw [Tree.eval_binary]
  cases heval : left.eval with
  | error fault =>
    rw [heval] at hleft
    exact chainr1_of_error hleft
  | ok x =>
    rw [heval] at hleft
    exact chainr1_of_step (definite_factorOf hq) hleft (joining_of_next hnext hop)
      (Lexicon.length_of_next hnext) hafter hrest

theorem follows_term {left right : Tree} {op : Operator} {after : Text} (hop : op.level = .term)
    (hleft : Follows q left inp mid .term) (hright : Follows q right after rest .power)
    (hnext : lexicon.next mid = some (.operator op, after)) (hlt : rest.length < mid.length) :
    Follows q (.binary op left right) inp rest .term := by
  intro hends
  rw [hleft (ends_of_operator hnext (by rw [hop]; decide)), Tree.eval_binary]
  exact chainFrom_of_step (joining_of_next hnext hop) (hright hends) hlt

theorem follows_expression {left right : Tree} {op : Operator} {after : Text}
    (hop : op.level = .expression) (hleft : Follows q left inp mid .expression)
    (hright : Follows q right after rest .term)
    (hnext : lexicon.next mid = some (.operator op, after)) (hlt : rest.length < mid.length) :
    Follows q (.binary op left right) inp rest .expression := by
  intro hpower hterm
  have hmid (level : Level) (hne : Level.expression ≠ level) : Ends level mid :=
    ends_of_operator hnext (hop ▸ hne)
  rw [hleft (hmid .power (by decide)) (hmid .term (by decide)), Tree.eval_binary]
  exact chainFrom_of_step (joining_of_next hnext hop) (hright.term_of_ends hpower hterm) hlt

/-- A text that starts with two phrases and an operator, taken apart at the operator. -/
theorem reads_operator {ts us : List Token} {op : Operator}
    (h : lexicon.Reads inp (ts ++ .operator op :: us) rest) :
    ∃ mid after, lexicon.Reads inp ts mid ∧ lexicon.next mid = some (.operator op, after) ∧
      lexicon.Reads after us rest ∧ after.length < inp.length ∧ rest.length < mid.length := by
  obtain ⟨mid, hts, after, hnext, hus⟩ := Lexicon.reads_append.mp h
  have hmid := Lexicon.length_of_reads hts
  have hafter := Lexicon.length_of_next hnext
  have hrest := Lexicon.length_of_reads hus
  exact ⟨mid, after, hts, hnext, hus, by omega, by omega⟩

theorem follows_of_derives (h : Derives level tokens tree) {n : Nat} (hinp : inp.length ≤ n)
    (hreads : lexicon.Reads inp tokens rest) :
    Follows (nested expressionOf n) tree inp rest level := by
  induction h generalizing n inp rest with
  | number value => exact factorOf_number (Lexicon.reads_singleton.mp hreads)
  | paren inner ih =>
    obtain ⟨mid, hopen, hmid⟩ := hreads
    obtain ⟨close, hinner, hlast⟩ := Lexicon.reads_append.mp hmid
    have hclose := Lexicon.reads_singleton.mp hlast
    have hlt := Lexicon.length_of_next hopen
    -- The text in the parentheses is shorter, so one activation of the rule less will do.
    cases n with
    | zero => omega
    | succ n =>
      have hfollows := ih (n := n) (by omega) hinner
      exact factorOf_paren hopen
        (hfollows.expression_of_ends fun level ↦ ends_of_next hclose rfl) hclose
  | powerFactor factor ih =>
    intro hends
    rw [powerOf_eq]
    exact chainr1_of_only (ih hinp hreads) (joining_of_ends hends)
  | power hop hleft hright ihleft ihright =>
    obtain ⟨mid, after, hts, hnext, hus, hafter, hlt⟩ := reads_operator hreads
    exact follows_power (definite_nested (fun _ _ ↦ definite_expressionOf) n) hop
      (ihleft hinp hts) (ihright (by omega) hus) hnext (by omega)
  | termPower power ih =>
    intro hends
    rw [termOf_eq]
    exact chainl1_of_only (ih hinp hreads hends)
  | term hop hleft hright ihleft ihright =>
    obtain ⟨mid, after, hts, hnext, hus, hafter, hlt⟩ := reads_operator hreads
    exact follows_term hop (ihleft hinp hts) (ihright (by omega) hus) hnext hlt
  | expressionTerm term ih =>
    intro hpower hterm
    rw [expressionOf_eq]
    exact chainl1_of_only ((ih hinp hreads).term_of_ends hpower hterm)
  | expression hop hleft hright ihleft ihright =>
    obtain ⟨mid, after, hts, hnext, hus, hafter, hlt⟩ := reads_operator hreads
    exact follows_expression hop (ihleft hinp hts) (ihright (by omega) hus) hnext hlt

/-- A text whose tokens derive an expression is evaluated like the tree of the expression. -/
theorem evaluate_of_derives {text : Text} (hlex : lexicon.tokens? text = some tokens)
    (h : Derives .expression tokens tree) : evaluate text = tree.eval.mapError RunError.fault := by
  have hreads := Lexicon.tokens?_eq_some_iff.mp hlex
  have hfollows := follows_of_derives h (Nat.le_refl _) hreads
  apply run_of_only
  unfold expression
  rw [recursive_apply]
  exact hfollows.expression_of_ends fun _ ↦ ends_nil

end Completeness

/-- A text that has a value is an expression of that value. -/
theorem exists_derives_of_evaluate_eq_ok {text : Text} {value : Int}
    (h : evaluate text = .ok value) :
    ∃ tokens tree, lexicon.tokens? text = some tokens ∧ Derives .expression tokens tree ∧
      tree.eval = .ok value := by
  obtain ⟨tokens, hreads, tree, htree, heval⟩ :=
    recognizes_expression _ _ _ (yields_of_run_eq_ok h)
  exact ⟨tokens, tree, Lexicon.tokens?_eq_some_iff.mpr hreads, htree, heval⟩

/-- The calculator evaluates the expressions of its grammar and has a value for no other text. -/
theorem evaluate_follows_grammar (text : Text) :
    (∀ tokens tree, lexicon.tokens? text = some tokens → Derives .expression tokens tree →
      evaluate text = tree.eval.mapError RunError.fault) ∧
    ((¬ ∃ tokens tree, lexicon.tokens? text = some tokens ∧ Derives .expression tokens tree) →
      ∀ value, evaluate text ≠ .ok value) := by
  constructor
  · intro tokens tree hlex hderives
    exact evaluate_of_derives hlex hderives
  · intro hnone value hvalue
    obtain ⟨tokens, tree, hlex, hderives, -⟩ := exists_derives_of_evaluate_eq_ok hvalue
    exact hnone ⟨tokens, tree, hlex, hderives⟩

/-- Values of all four operators, an undefined power, and a text that is no expression. -/
theorem evaluate_follows_grammar_samples :
    evaluate "12 + 3\t* 4 -- less\n-5".toList = .ok 19 ∧
    evaluate "2^3^2".toList = .ok 512 ∧
    evaluate "0^(0-1)".toList = .error (.fault .divisionByZero) ∧
    ∀ value, evaluate "2+?".toList ≠ .ok value := by
  have hnumber (n : Nat) : Derives .power [.number n] (.number n) := .powerFactor (.number n)
  refine ⟨?_, ?_, ?_, ?_⟩
  · have hproduct : Derives .term [.number 3, .operator .mul, .number 4]
        (.binary .mul (.number 3) (.number 4)) :=
      .term rfl (.termPower (hnumber 3)) (hnumber 4)
    have hsum : Derives .expression [.number 12, .operator .add, .number 3, .operator .mul, .number 4]
        (.binary .add (.number 12) (.binary .mul (.number 3) (.number 4))) :=
      .expression rfl (.expressionTerm (.termPower (hnumber 12))) hproduct
    exact (evaluate_follows_grammar _).1
      [.number 12, .operator .add, .number 3, .operator .mul, .number 4, .operator .sub, .number 5]
      (.binary .sub (.binary .add (.number 12) (.binary .mul (.number 3) (.number 4))) (.number 5))
      (by decide +kernel) (.expression rfl hsum (.termPower (hnumber 5)))
  · have hpower : Derives .power
        [.number 2, .operator .pow, .number 3, .operator .pow, .number 2]
        (.binary .pow (.number 2) (.binary .pow (.number 3) (.number 2))) :=
      .power rfl (.number 2) (.power rfl (.number 3) (hnumber 2))
    exact (evaluate_follows_grammar _).1 _ _ (by decide +kernel) (.expressionTerm (.termPower hpower))
  · have hdifference : Derives .expression [.number 0, .operator .sub, .number 1]
        (.binary .sub (.number 0) (.number 1)) :=
      .expression rfl (.expressionTerm (.termPower (hnumber 0))) (.termPower (hnumber 1))
    have hpower : Derives .power [.number 0, .operator .pow, .openParen, .number 0, .operator .sub,
        .number 1, .closeParen]
        (.binary .pow (.number 0) (.binary .sub (.number 0) (.number 1))) :=
      .power rfl (.number 0) (.powerFactor (.paren hdifference))
    have hundefined : truncatedPower 0 (0 - 1) = .error .divisionByZero := by
      have hzero : Binary64.round? (0 : Int).natAbs = some 0 := by decide +kernel
      have hone : Binary64.round? (0 - 1 : Int).natAbs = some 1 := by decide +kernel
      simp only [truncatedPower, hzero, hone]
      simp
    rw [(evaluate_follows_grammar _).1 _ _ (by decide +kernel) (.expressionTerm (.termPower hpower))]
    simp only [Tree.eval, ok_bind, pure_bind, Int.ofNat_zero, Int.ofNat_one, hundefined]
    rfl
  · apply (evaluate_follows_grammar _).2
    rintro ⟨tokens, tree, hlex, -⟩
    have hnone : lexicon.tokens? "2+?".toList = none := by decide +kernel
    rw [hnone] at hlex
    contradiction

end Backtrack.Arith
