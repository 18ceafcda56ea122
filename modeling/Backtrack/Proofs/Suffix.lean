import Backtrack.Arith.Expression
import Backtrack.Lambda.Grammar
import Backtrack.Proofs.Layout
import Backtrack.Proofs.Repetition
import Backtrack.Proofs.Yields

/-!
# Parsers leave suffixes

No combinator makes characters up: on every text, whatever a run leaves over is a suffix of the
text.  There is one lemma for each combinator.  Those of the loops are inductions on the run, since
a loop goes on from what its last step has left, and so is the one of a rule that refers to itself.
-/

namespace Backtrack.Parser

variable {α β γ : Type} {p : Parser α}

/-- Every text that a run leaves over is a suffix of the text it was given. -/
def LeavesSuffixes (p : Parser α) : Prop :=
  ∀ inp value rest, Yields p inp (value, rest) → rest <:+ inp

theorem LeavesSuffixes.suffix_of_mem {inp : Text} {outcomes : Outcomes α} (hp : LeavesSuffixes p)
    (hrun : p inp = .ok outcomes) : ∀ outcome ∈ outcomes, outcome.2 <:+ inp :=
  fun outcome hmem ↦ hp inp outcome.1 outcome.2 ⟨outcomes, hrun, hmem⟩

/-! ## Single characters and runs of characters -/

theorem leavesSuffixes_succeed (value : α) : LeavesSuffixes (succeed value) := by
  intro inp v rest h
  cases eq_of_yields_single (succeed_apply value inp) h
  exact List.suffix_refl inp

theorem leavesSuffixes_fail : LeavesSuffixes (fail : Parser α) := fun inp _ _ h ↦
  absurd h (not_yields_of_nil (fail_apply inp) _)

theorem leavesSuffixes_ofExcept (result : Except Fault α) : LeavesSuffixes (ofExcept result) := by
  cases result with
  | error fault => exact fun inp value rest h ↦ absurd h (not_yields_of_error rfl _)
  | ok value => exact leavesSuffixes_succeed value

theorem leavesSuffixes_item : LeavesSuffixes item := by
  intro inp c rest h
  cases inp with
  | nil => exact absurd h (not_yields_of_nil item_nil _)
  | cons d tail =>
    cases eq_of_yields_single (item_cons d tail) h
    exact List.suffix_cons c rest

theorem leavesSuffixes_string (text : Text) : LeavesSuffixes (string text) := by
  intro inp value rest h
  by_cases hprefix : text.isPrefixOf inp
  · cases eq_of_yields_single (if_pos hprefix) h
    exact List.drop_suffix text.length inp
  · exact absurd h (not_yields_of_nil (if_neg hprefix) _)

theorem leavesSuffixes_eof : LeavesSuffixes eof := by
  intro inp value rest h
  cases inp with
  | nil =>
    cases eq_of_yields_single rfl h
    exact List.suffix_refl []
  | cons c tail => exact absurd h (not_yields_of_nil rfl _)

theorem leavesSuffixes_takeWhile (accepts : Char → Bool) : LeavesSuffixes (takeWhile accepts) := by
  intro inp value rest h
  cases eq_of_yields_single (takeWhile_apply accepts inp) h
  exact List.dropWhile_suffix accepts

theorem leavesSuffixes_word : LeavesSuffixes word := by
  rintro inp value rest ⟨outcomes, hrun, hmem⟩
  cases hrun
  obtain ⟨n, -, hn⟩ := List.mem_map.mp hmem
  cases hn
  exact List.drop_suffix n inp

/-! ## Sequence and choice -/

theorem LeavesSuffixes.bind (hp : LeavesSuffixes p) {f : α → Parser β}
    (hf : ∀ value, LeavesSuffixes (f value)) : LeavesSuffixes (p.bind f) := by
  intro inp value rest h
  obtain ⟨v, mid, hv, hw⟩ := yields_bind h
  have hmid : mid <:+ inp := hp inp v mid hv
  exact (hf v mid value rest hw).trans hmid

theorem LeavesSuffixes.map (hp : LeavesSuffixes p) (f : α → β) : LeavesSuffixes (p.map f) := by
  intro inp value rest h
  obtain ⟨v, hv, -⟩ := yields_map h
  exact hp inp v rest hv

theorem LeavesSuffixes.replace (hp : LeavesSuffixes p) (value : β) :
    LeavesSuffixes (p.replace value) := hp.map fun _ ↦ value

theorem LeavesSuffixes.first (hp : LeavesSuffixes p) : LeavesSuffixes (first p) :=
  fun inp value rest h ↦ hp inp value rest (yields_first h)

theorem leavesSuffixes_anyOf {ps : List (Parser α)} (h : ∀ p ∈ ps, LeavesSuffixes p) :
    LeavesSuffixes (anyOf ps) := by
  intro inp value rest hyields
  obtain ⟨p, hp, hv⟩ := yields_anyOf hyields
  exact h p hp inp value rest hv

theorem leavesSuffixes_firstOf {ps : List (Parser α)} (h : ∀ p ∈ ps, LeavesSuffixes p) :
    LeavesSuffixes (firstOf ps) := by
  intro inp value rest hyields
  obtain ⟨p, hp, hv⟩ := yields_firstOf hyields
  exact h p hp inp value rest hv

theorem leavesSuffixes_operators {table : List (Parser β × α)}
    (h : ∀ entry ∈ table, LeavesSuffixes entry.1) : LeavesSuffixes (operators table) := by
  apply leavesSuffixes_anyOf
  intro p hp
  obtain ⟨entry, hentry, rfl⟩ := List.mem_map.mp hp
  exact (h entry hentry).replace entry.2

theorem LeavesSuffixes.middle {left : Parser β} {right : Parser γ} (hleft : LeavesSuffixes left)
    (hp : LeavesSuffixes p) (hright : LeavesSuffixes right) :
    LeavesSuffixes (middle left p right) := by
  rw [middle_eq_bind]
  exact hleft.bind fun _ ↦ hp.bind fun value ↦ hright.replace value

/-! ## Character classes -/

theorem leavesSuffixes_satisfy (accepts : Char → Bool) : LeavesSuffixes (satisfy accepts) := by
  apply leavesSuffixes_item.bind
  intro c
  by_cases h : accepts c
  · rw [if_pos h]
    exact leavesSuffixes_succeed c
  · rw [if_neg h]
    exact leavesSuffixes_fail

theorem leavesSuffixes_letter : LeavesSuffixes letter :=
  leavesSuffixes_anyOf (List.forall_mem_cons.mpr
    ⟨leavesSuffixes_satisfy _, List.forall_mem_singleton.mpr (leavesSuffixes_satisfy _)⟩)

theorem leavesSuffixes_alphanumeric : LeavesSuffixes alphanumeric :=
  leavesSuffixes_anyOf (List.forall_mem_cons.mpr
    ⟨leavesSuffixes_letter, List.forall_mem_singleton.mpr (leavesSuffixes_satisfy _)⟩)

/-! ## Repetition -/

/-- A repetition starts where the one before it has stopped. -/
theorem suffix_of_repeatFirst (hp : LeavesSuffixes p) {inp last : Text} {values : List α}
    (h : repeatFirst p inp = .ok (values, last)) : last <:+ inp := by
  fun_induction repeatFirst p inp generalizing values with
  | case1 => contradiction
  | case2 inp outcomes hrun notFound =>
    cases h
    exact List.suffix_refl last
  | case3 inp outcomes hrun value rest found ih =>
    have hrest : rest <:+ inp := hp inp value rest ⟨outcomes, hrun, List.mem_of_find?_eq_some found⟩
    obtain ⟨more, hmore, hsame⟩ := exists_of_bind_eq_ok h
    cases hsame
    exact (ih hmore).trans hrest

theorem LeavesSuffixes.greedy (hp : LeavesSuffixes p) : LeavesSuffixes (greedy p) :=
  fun _ _ _ h ↦ suffix_of_repeatFirst hp (yields_greedy h)

theorem suffix_of_repetitions (hp : LeavesSuffixes p) {inp : Text} {found : Outcomes (List α)}
    (h : repetitions p inp = .ok found) : ∀ outcome ∈ found, outcome.2 <:+ inp := by
  induction hlen : inp.length using Nat.strongRecOn generalizing inp found with
  | ind n ih =>
    intro outcome hmem
    rcases mem_repetitions h hmem with
      rfl | ⟨value, rest, more, hyields, shorter, hmore, last, hlast, rfl⟩
    · exact List.suffix_refl inp
    · have hrest : rest <:+ inp := hp inp value rest hyields
      exact (ih rest.length (hlen ▸ shorter) hmore rfl last hlast).trans hrest

theorem LeavesSuffixes.many (hp : LeavesSuffixes p) : LeavesSuffixes (many p) := by
  intro inp values rest h
  obtain ⟨found, hfound, hmem⟩ := yields_many h
  exact suffix_of_repetitions hp hfound (values, rest) hmem

theorem LeavesSuffixes.many1 (hp : LeavesSuffixes p) : LeavesSuffixes (many1 p) :=
  hp.bind fun x ↦ hp.many.map fun xs ↦ x :: xs

theorem LeavesSuffixes.sepBy1 {sep : Parser β} (hp : LeavesSuffixes p) (hsep : LeavesSuffixes sep) :
    LeavesSuffixes (sepBy1 p sep) :=
  hp.bind fun x ↦ (hsep.bind fun _ ↦ hp).many.map fun xs ↦ x :: xs

theorem LeavesSuffixes.sepBy {sep : Parser β} (hp : LeavesSuffixes p) (hsep : LeavesSuffixes sep) :
    LeavesSuffixes (sepBy p sep) := by
  have hempty : LeavesSuffixes (succeed ([] : List α)) := leavesSuffixes_succeed []
  exact leavesSuffixes_anyOf
    (List.forall_mem_cons.mpr ⟨hp.sepBy1 hsep, List.forall_mem_singleton.mpr hempty⟩)

/-! ## Chains -/

section Chains

variable {op : Parser (Operation α)}

theorem LeavesSuffixes.chainStep (hp : LeavesSuffixes p) (hop : LeavesSuffixes op) :
    LeavesSuffixes (chainStep p op) := (hop.bind fun f ↦ hp.map fun y ↦ (f, y)).first

theorem suffix_of_foldSteps {step : Parser (Operation α × α)} (hstep : LeavesSuffixes step)
    {x : α} {inp : Text} {outcome : α × Text} (h : foldSteps step x inp = .ok outcome) :
    outcome.2 <:+ inp := by
  fun_induction foldSteps step x inp with
  | case1 => contradiction
  | case2 x inp hrun =>
    cases h
    exact List.suffix_refl inp
  | case3 => contradiction
  | case4 x inp f y rest steps hrun shorter z hz ih =>
    have hrest : rest <:+ inp := hstep inp (f, y) rest ⟨_, hrun, List.mem_cons_self⟩
    exact (ih h).trans hrest
  | case5 x inp f y rest steps hrun notShorter =>
    cases h
    exact List.suffix_refl inp

theorem LeavesSuffixes.chainl1 (hp : LeavesSuffixes p) (hop : LeavesSuffixes op) :
    LeavesSuffixes (chainl1 p op) := by
  intro inp value rest h
  obtain ⟨x, mid, hx, hfold⟩ := yields_chainl1 h
  have hmid : mid <:+ inp := hp inp x mid hx
  exact (suffix_of_foldSteps (hp.chainStep hop) hfold).trans hmid

theorem LeavesSuffixes.chainr1 (hp : LeavesSuffixes p) (hop : LeavesSuffixes op) :
    LeavesSuffixes (chainr1 p op) := by
  intro inp value rest h
  obtain ⟨x, mid, steps, hx, hsteps, -⟩ := yields_chainr1_steps h
  have hmid : mid <:+ inp := hp inp x mid hx
  exact (suffix_of_repeatFirst (hp.chainStep hop) hsteps).trans hmid

end Chains

/-! ## The lexical layer -/

theorem leavesSuffixes_spaces : LeavesSuffixes spaces :=
  ((leavesSuffixes_satisfy _).bind fun _ ↦ leavesSuffixes_takeWhile _).replace ()

theorem leavesSuffixes_commentLine (start : Text) : LeavesSuffixes (commentLine start) :=
  ((leavesSuffixes_string start).bind fun _ ↦ leavesSuffixes_takeWhile _).replace ()

theorem leavesSuffixes_layout : LeavesSuffixes layout := by
  have hpiece : LeavesSuffixes (firstOf [spaces, lineComment]) :=
    leavesSuffixes_firstOf (List.forall_mem_cons.mpr
      ⟨leavesSuffixes_spaces, List.forall_mem_singleton.mpr (leavesSuffixes_commentLine _)⟩)
  exact hpiece.greedy.replace ()

theorem LeavesSuffixes.lexeme (hp : LeavesSuffixes p) : LeavesSuffixes (lexeme p) :=
  hp.bind fun value ↦ leavesSuffixes_layout.replace value

theorem LeavesSuffixes.parse (hp : LeavesSuffixes p) : LeavesSuffixes (parse p) :=
  leavesSuffixes_layout.bind fun _ ↦ hp

theorem leavesSuffixes_symbol (text : Text) : LeavesSuffixes (symbol text) :=
  (leavesSuffixes_string text).lexeme

theorem leavesSuffixes_ident : LeavesSuffixes ident :=
  (leavesSuffixes_satisfy _).bind fun c ↦ (leavesSuffixes_takeWhile _).map fun cs ↦ c :: cs

theorem leavesSuffixes_identifier (keywords : List Text) :
    LeavesSuffixes (identifier keywords) := by
  refine (leavesSuffixes_ident.bind fun name ↦ ?_).lexeme
  by_cases h : keywords.contains name
  · rw [if_pos h]
    exact leavesSuffixes_fail
  · rw [if_neg h]
    exact leavesSuffixes_succeed name

theorem leavesSuffixes_nat : LeavesSuffixes nat :=
  ((leavesSuffixes_satisfy _).map digitValue).chainl1 (leavesSuffixes_succeed _)

theorem leavesSuffixes_int : LeavesSuffixes int := by
  have hnegative : LeavesSuffixes (bind (char '-') fun _ ↦ map (fun n : Nat ↦ -(n : Int)) nat) :=
    (leavesSuffixes_satisfy _).bind fun _ ↦ leavesSuffixes_nat.map _
  exact leavesSuffixes_firstOf (List.forall_mem_cons.mpr
    ⟨hnegative, List.forall_mem_singleton.mpr (leavesSuffixes_nat.map _)⟩)

/-! ## Recursion -/

section Recursion

variable {body : Parser α → Parser α}

/-- The induction is on the number of activations that may be open: an activation runs the body on
rules with one less. -/
theorem leavesSuffixes_nested (hbody : ∀ q, LeavesSuffixes q → LeavesSuffixes (body q)) (n : Nat) :
    LeavesSuffixes (nested body n) := by
  induction n with
  | zero => exact fun inp value rest h ↦ absurd h (not_yields_of_error (nested_zero body inp) _)
  | succ n ih => exact fun inp ↦ hbody (nested body n) ih inp

theorem leavesSuffixes_recursive (hbody : ∀ q, LeavesSuffixes q → LeavesSuffixes (body q)) :
    LeavesSuffixes (recursive body) := fun inp ↦ leavesSuffixes_nested hbody (inp.length + 1) inp

end Recursion

end Backtrack.Parser

/-! ## Integer expressions -/

namespace Backtrack.Arith

open Backtrack.Parser

variable {q : Parser Int}

theorem leavesSuffixes_addop : LeavesSuffixes addop :=
  leavesSuffixes_operators (List.forall_mem_cons.mpr
    ⟨leavesSuffixes_symbol _, List.forall_mem_singleton.mpr (leavesSuffixes_symbol _)⟩)

theorem leavesSuffixes_mulop : LeavesSuffixes mulop :=
  leavesSuffixes_operators (List.forall_mem_singleton.mpr (leavesSuffixes_symbol _))

theorem leavesSuffixes_expop : LeavesSuffixes expop :=
  leavesSuffixes_operators (List.forall_mem_singleton.mpr (leavesSuffixes_symbol _))

theorem leavesSuffixes_factorOf (hq : LeavesSuffixes q) : LeavesSuffixes (factorOf q) := by
  have hnumber : LeavesSuffixes (map (fun n : Nat ↦ (n : Int)) natural) :=
    leavesSuffixes_nat.lexeme.map _
  have hparen : LeavesSuffixes (middle (symbol "(".toList) q (symbol ")".toList)) :=
    (leavesSuffixes_symbol _).middle hq (leavesSuffixes_symbol _)
  exact leavesSuffixes_firstOf
    (List.forall_mem_cons.mpr ⟨hnumber, List.forall_mem_singleton.mpr hparen⟩)

theorem leavesSuffixes_powerOf (hq : LeavesSuffixes q) : LeavesSuffixes (powerOf q) :=
  (leavesSuffixes_factorOf hq).chainr1 (leavesSuffixes_expop.map _)

theorem leavesSuffixes_termOf (hq : LeavesSuffixes q) : LeavesSuffixes (termOf q) :=
  (leavesSuffixes_powerOf hq).chainl1 (leavesSuffixes_mulop.map _)

theorem leavesSuffixes_expressionOf (hq : LeavesSuffixes q) : LeavesSuffixes (expressionOf q) :=
  (leavesSuffixes_termOf hq).chainl1 (leavesSuffixes_addop.map _)

theorem leavesSuffixes_expression : LeavesSuffixes expression :=
  leavesSuffixes_recursive fun _ ↦ leavesSuffixes_expressionOf

end Backtrack.Arith

/-! ## Lambda terms -/

namespace Backtrack.Lambda

open Backtrack.Parser

variable {q : Parser Term}

theorem leavesSuffixes_variableName : LeavesSuffixes variableName := leavesSuffixes_identifier _

theorem leavesSuffixes_parenOf (hq : LeavesSuffixes q) : LeavesSuffixes (parenOf q) :=
  (leavesSuffixes_symbol _).middle hq (leavesSuffixes_symbol _)

theorem leavesSuffixes_lamOf (hq : LeavesSuffixes q) : LeavesSuffixes (lamOf q) :=
  (leavesSuffixes_symbol _).bind fun _ ↦ leavesSuffixes_variableName.bind fun x ↦
    (leavesSuffixes_symbol _).bind fun _ ↦ hq.map (Term.lam x)

theorem leavesSuffixes_letOf (hq : LeavesSuffixes q) : LeavesSuffixes (letOf q) :=
  (leavesSuffixes_symbol _).bind fun _ ↦ leavesSuffixes_variableName.bind fun x ↦
    (leavesSuffixes_symbol _).bind fun _ ↦ hq.bind fun value ↦
      (leavesSuffixes_symbol _).bind fun _ ↦ hq.map (Term.letIn x value)

theorem leavesSuffixes_atomOf (hq : LeavesSuffixes q) : LeavesSuffixes (atomOf q) := by
  have hvar : LeavesSuffixes var := leavesSuffixes_variableName.map Term.var
  apply leavesSuffixes_firstOf
  intro p hp
  simp only [List.mem_cons, List.not_mem_nil, or_false] at hp
  rcases hp with rfl | rfl | rfl | rfl
  · exact leavesSuffixes_lamOf hq
  · exact leavesSuffixes_letOf hq
  · exact hvar
  · exact leavesSuffixes_parenOf hq

theorem leavesSuffixes_exprOf (hq : LeavesSuffixes q) : LeavesSuffixes (exprOf q) :=
  (leavesSuffixes_atomOf hq).chainl1 (leavesSuffixes_succeed _)

theorem leavesSuffixes_expr : LeavesSuffixes expr :=
  leavesSuffixes_recursive fun _ ↦ leavesSuffixes_exprOf

end Backtrack.Lambda
