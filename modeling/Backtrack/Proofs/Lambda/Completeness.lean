import Backtrack.Proofs.Lambda.Maximal
import Backtrack.Proofs.Lambda.Soundness
import Backtrack.Proofs.Verdict

/-!
# The parser of terms follows maximal derivations

The main statement is that a text whose tokens have a maximal derivation is read as the term of the
derivation.  The parser commits itself to the first alternative that matches.  This is the right one
for a closed atom unless `=` stands behind it, and a term reaches up to a place where no atom can be
read.  A spine is read up to the place where its chain goes on.
-/

namespace Backtrack.Lambda

open Backtrack.Parser

variable {q : Parser Term} {inp mid rest name : Text} {token : Token} {term : Term}

/-- No term goes on here. -/
def Closing (rest : Text) : Prop :=
  ∀ token after, lexicon.next rest = some (token, after) →
    token = .closeParen ∨ token = .word "in".toList

theorem closing_nil : Closing [] := by
  intro token after h
  rw [Lexicon.next_nil] at h
  contradiction

theorem closing_of_next (h : lexicon.next inp = some (token, rest))
    (htoken : token = .closeParen ∨ token = .word "in".toList) : Closing inp := by
  intro other after hother
  rw [(Lexicon.next_unique h hother).1]
  exact htoken

theorem Closing.next_ne (h : Closing inp) (hparen : token ≠ .closeParen)
    (hin : token ≠ .word "in".toList) : ∀ after, lexicon.next inp ≠ some (token, after) := by
  intro after hnext
  rcases h token after hnext with hsame | hsame
  · exact hparen hsame
  · exact hin hsame

theorem lamOf_eq_nil (h : ∀ after, lexicon.next inp ≠ some (.backslash, after)) :
    lamOf q inp = .ok [] := by
  rw [lamOf_eq_bind, backslash_eq_exactly]
  exact bind_of_nil (Lexicon.exactly_eq_nil h _) _

theorem letOf_eq_nil (h : symbol "let".toList inp = .ok []) : letOf q inp = .ok [] := by
  rw [letOf_eq_bind]
  exact bind_of_nil h _

theorem var_eq_nil (h : ∀ name after, lexicon.next inp = some (.word name, after) → ¬ isName name) :
    var inp = .ok [] := by
  unfold var
  rw [variableName_eq_accept]
  refine map_of_nil (Lexicon.accept_eq_nil ?_) _
  intro token after hnext
  cases token with
  | word name => exact if_neg (h name after hnext)
  | _ => rfl

theorem parenOf_eq_nil (h : ∀ after, lexicon.next inp ≠ some (.openParen, after)) :
    parenOf q inp = .ok [] := by
  unfold parenOf
  rw [middle_eq_bind, openParen_eq_exactly]
  exact bind_of_nil (Lexicon.exactly_eq_nil h _) _

theorem let_eq_nil_of_closing (h : Closing inp) : symbol "let".toList inp = .ok [] := by
  apply let_eq_nil
  intro token after hnext
  rcases h token after hnext with rfl | rfl <;> decide

theorem atomOf_eq_nil_of_closing (h : Closing inp) : atomOf q inp = .ok [] := by
  have hname : ∀ name after, lexicon.next inp = some (.word name, after) → ¬ isName name := by
    intro name after hnext
    rcases h _ after hnext with hsame | hsame
    · contradiction
    · cases hsame
      decide
  unfold atomOf
  rw [firstOf_cons_of_nil (lamOf_eq_nil (h.next_ne (by decide) (by decide))),
    firstOf_cons_of_nil (letOf_eq_nil (let_eq_nil_of_closing h)),
    firstOf_cons_of_nil (var_eq_nil hname),
    firstOf_cons_of_nil (parenOf_eq_nil (h.next_ne (by decide) (by decide))), firstOf_nil]

theorem lamOf_of_next {first second third : Text} (hname : isName name)
    (hbackslash : lexicon.next inp = some (.backslash, first))
    (hword : lexicon.next first = some (.word name, second))
    (harrow : lexicon.next second = some (.arrow, third)) (hbody : q third = .ok [(term, rest)]) :
    lamOf q inp = .ok [(.lam name term, rest)] := by
  rw [lamOf_eq_bind, backslash_eq_exactly, variableName_eq_accept, arrow_eq_exactly,
    bind_of_single (Lexicon.exactly_of_next hbackslash _),
    bind_of_single (Lexicon.accept_of_next hword (if_pos hname)),
    bind_of_single (Lexicon.exactly_of_next harrow _)]
  exact map_of_single hbody _

theorem letOf_of_reads {head : List Token} {value : Term} {second third fourth fifth : Text}
    (hhead : LetHead head name) (hreads : lexicon.Reads inp head second)
    (hequals : lexicon.next second = some (.equals, third)) (hvalue : q third = .ok [(value, fourth)])
    (hin : lexicon.next fourth = some (.word "in".toList, fifth))
    (hbody : q fifth = .ok [(term, rest)]) :
    letOf q inp = .ok [(.letIn name value term, rest)] := by
  obtain ⟨first, hlet, hvariable⟩ := letHead_of_reads hhead hreads
  have hinRead : symbol "in".toList fourth = .ok [("in".toList, fifth)] := symbol_of_next hin
  rw [letOf_eq_bind, bind_of_single hlet, bind_of_single hvariable, equals_eq_exactly,
    bind_of_single (Lexicon.exactly_of_next hequals _), bind_of_single hvalue,
    bind_of_single hinRead]
  exact map_of_single hbody _

theorem atomOf_of_lamOf (h : lamOf q inp = .ok [(term, rest)]) :
    atomOf q inp = .ok [(term, rest)] := firstOf_cons_of_cons h _

theorem atomOf_of_letOf (hlam : lamOf q inp = .ok []) (h : letOf q inp = .ok [(term, rest)]) :
    atomOf q inp = .ok [(term, rest)] := by
  unfold atomOf
  rw [firstOf_cons_of_nil hlam]
  exact firstOf_cons_of_cons h _

/-- A name is read as a variable unless `=` stands behind it. -/
theorem atomOf_of_name (hname : isName name) (hnext : lexicon.next inp = some (.word name, rest))
    (hequals : ∀ after, lexicon.next rest ≠ some (.equals, after)) :
    atomOf q inp = .ok [(.var name, rest)] := by
  have hlam : lamOf q inp = .ok [] := lamOf_eq_nil (Lexicon.next_ne_of_next hnext (by simp))
  -- Where `let` and a name can be read all the same, they end where the name does.
  have hlet : letOf q inp = .ok [] := by
    rcases let_cases_of_isName hname hnext with hnil | ⟨mid, hlet, hnil | ⟨other, hother⟩⟩
    · exact letOf_eq_nil hnil
    · rw [letOf_eq_bind, bind_of_single hlet]
      exact bind_of_nil hnil _
    · rw [letOf_eq_bind, bind_of_single hlet, bind_of_single hother, equals_eq_exactly]
      exact bind_of_nil (Lexicon.exactly_eq_nil hequals _) _
  unfold atomOf
  rw [firstOf_cons_of_nil hlam, firstOf_cons_of_nil hlet]
  exact firstOf_cons_of_cons (var_of_next hname hnext) _

theorem atomOf_of_paren {close : Text} (hopen : lexicon.next inp = some (.openParen, mid))
    (hq : q mid = .ok [(term, close)]) (hclose : lexicon.next close = some (.closeParen, rest)) :
    atomOf q inp = .ok [(term, rest)] := by
  have hlam : lamOf q inp = .ok [] := lamOf_eq_nil (Lexicon.next_ne_of_next hopen (by decide))
  have hlet : symbol "let".toList inp = .ok [] := by
    apply let_eq_nil
    intro token after hnext
    rw [(Lexicon.next_unique hopen hnext).1]
    decide
  have hvar : var inp = .ok [] := by
    apply var_eq_nil
    intro name after hnext
    exact absurd hnext (Lexicon.next_ne_of_next hopen (by simp) after)
  have hparen : parenOf q inp = only (.ok term) rest := by
    unfold parenOf
    rw [openParen_eq_exactly, closeParen_eq_exactly]
    exact middle_of_only (Lexicon.exactly_of_next hopen _) hq (Lexicon.exactly_of_next hclose _)
  unfold atomOf
  rw [firstOf_cons_of_nil hlam, firstOf_cons_of_nil (letOf_eq_nil hlet), firstOf_cons_of_nil hvar]
  exact firstOf_singleton_of_only hparen

/-! ## Following a derivation -/

/-- How the parsers run on a text that starts with a phrase of a shape.  A spine is read up to the
place where its chain can go on. -/
def Follows (q : Parser Term) (term : Term) (inp rest : Text) : Shape → Prop
  | .closed =>
    (∀ after, lexicon.next rest ≠ some (.equals, after)) → atomOf q inp = .ok [(term, rest)]
  | .reaching => Closing rest → atomOf q inp = .ok [(term, rest)]
  | .spine =>
    (∀ after, lexicon.next rest ≠ some (.equals, after)) →
      exprOf q inp = chainFrom (atomOf q) juxtaposition (.ok term) rest
  | .whole => Closing rest → exprOf q inp = .ok [(term, rest)]

theorem chainFrom_of_closing (h : Closing rest) :
    chainFrom (atomOf q) juxtaposition (.ok term) rest = .ok [(term, rest)] :=
  chainFrom_of_nil (chainStep_succeed_of_nil (atomOf_eq_nil_of_closing h))

theorem chainFrom_of_atomOf {fn arg : Term} (h : atomOf q mid = .ok [(arg, rest)])
    (shorter : rest.length < mid.length) :
    chainFrom (atomOf q) juxtaposition (.ok fn) mid =
      chainFrom (atomOf q) juxtaposition (.ok (.app fn arg)) rest := by
  have harg : atomOf q mid = only (.ok arg) rest := h
  exact chainFrom_of_step (succeed_apply _ mid) harg shorter

theorem LetHead.exists_cons {tokens : List Token} (h : LetHead tokens name) :
    ∃ word others, tokens = .word word :: others := by
  cases h with
  | apart => exact ⟨_, _, rfl⟩
  | joined => exact ⟨_, _, rfl⟩

theorem LetHead.next_ne_backslash {tokens : List Token} (h : LetHead tokens name)
    (hreads : lexicon.Reads inp tokens rest) :
    ∀ after, lexicon.next inp ≠ some (.backslash, after) := by
  obtain ⟨word, others, rfl⟩ := h.exists_cons
  obtain ⟨mid, hnext, -⟩ := hreads
  exact Lexicon.next_ne_of_next hnext (by simp)

/-- An atom starts with a token that does not go on with the head of a definition. -/
theorem Maximal.exists_cons {shape : Shape} {tokens : List Token} (h : Maximal shape tokens term)
    (hshape : shape = .closed ∨ shape = .reaching) :
    ∃ first others, tokens = first :: others ∧ first ≠ .equals := by
  cases h with
  | var => exact ⟨_, _, rfl, by simp⟩
  | paren => exact ⟨_, _, rfl, by simp⟩
  | lam => exact ⟨_, _, rfl, by simp⟩
  | letIn hhead =>
    obtain ⟨word, others, rfl⟩ := hhead.exists_cons
    exact ⟨_, _, rfl, by simp⟩
  | _ => exact absurd hshape (by decide)

theorem Maximal.next_of_reads {shape : Shape} {tokens : List Token} (h : Maximal shape tokens term)
    (hshape : shape = .closed ∨ shape = .reaching) (hreads : lexicon.Reads inp tokens rest) :
    (∀ after, lexicon.next inp ≠ some (.equals, after)) ∧ rest.length < inp.length := by
  obtain ⟨first, others, rfl, hfirst⟩ := h.exists_cons hshape
  have hlength := Lexicon.length_of_reads hreads
  obtain ⟨mid, hnext, -⟩ := hreads
  rw [List.length_cons] at hlength
  exact ⟨Lexicon.next_ne_of_next hnext hfirst, by omega⟩

/-- A whole term in a shorter text is read by the rule with one activation less. -/
theorem nested_of_follows {n : Nat} (hlt : inp.length < n)
    (h : ∀ m, inp.length ≤ m → Follows (nested exprOf m) term inp rest .whole)
    (hclosing : Closing rest) : nested exprOf n inp = .ok [(term, rest)] := by
  cases n with
  | zero => exact absurd hlt (Nat.not_lt_zero _)
  | succ n => exact h n (Nat.le_of_lt_succ hlt) hclosing

theorem follows_of_maximal {shape : Shape} {tokens : List Token} (h : Maximal shape tokens term)
    {n : Nat} (hinp : inp.length ≤ n) (hreads : lexicon.Reads inp tokens rest) :
    Follows (nested exprOf n) term inp rest shape := by
  induction h generalizing n inp rest with
  | var hname =>
    intro hequals
    exact atomOf_of_name hname (Lexicon.reads_singleton.mp hreads) hequals
  | paren inner ih =>
    intro _
    obtain ⟨mid, hopen, hmid⟩ := hreads
    obtain ⟨close, hinner, hlast⟩ := Lexicon.reads_append.mp hmid
    have hclose := Lexicon.reads_singleton.mp hlast
    have hlt := Nat.lt_of_lt_of_le (Lexicon.length_of_next hopen) hinp
    have hterm := nested_of_follows hlt (fun _ hm ↦ ih hm hinner) (closing_of_next hclose (.inl rfl))
    exact atomOf_of_paren hopen hterm hclose
  | lam hname hbody ih =>
    intro hclosing
    obtain ⟨first, hbackslash, second, hword, third, harrow, htokens⟩ := hreads
    have hfirst := Lexicon.length_of_next hbackslash
    have hsecond := Lexicon.length_of_next hword
    have hthird := Lexicon.length_of_next harrow
    have hlt : third.length < n := by omega
    have hterm := nested_of_follows hlt (fun _ hm ↦ ih hm htokens) hclosing
    exact atomOf_of_lamOf (lamOf_of_next hname hbackslash hword harrow hterm)
  | letIn hhead hvalue hbody ihvalue ihbody =>
    intro hclosing
    obtain ⟨second, hheadReads, third, hequals, htokens⟩ := Lexicon.reads_append.mp hreads
    obtain ⟨fourth, hts, fifth, hin, hus⟩ := Lexicon.reads_append.mp htokens
    have hsecond := Lexicon.length_of_reads hheadReads
    have hthird := Lexicon.length_of_next hequals
    have hfourth := Lexicon.length_of_reads hts
    have hfifth := Lexicon.length_of_next hin
    have hthirdLt : third.length < n := by omega
    have hfifthLt : fifth.length < n := by omega
    have hvalueTerm := nested_of_follows hthirdLt (fun _ hm ↦ ihvalue hm hts)
      (closing_of_next hin (.inr rfl))
    have hbodyTerm := nested_of_follows hfifthLt (fun _ hm ↦ ihbody hm hus) hclosing
    have hlam : lamOf (nested exprOf n) inp = .ok [] :=
      lamOf_eq_nil (hhead.next_ne_backslash hheadReads)
    exact atomOf_of_letOf hlam (letOf_of_reads hhead hheadReads hequals hvalueTerm hin hbodyTerm)
  | head atom ih =>
    intro hequals
    have hatom := ih hinp hreads hequals
    exact chainl1_of_only hatom
  | app hfn harg ihfn iharg =>
    intro hequals
    obtain ⟨mid, hts, hus⟩ := Lexicon.reads_append.mp hreads
    obtain ⟨hmid, hshorter⟩ := harg.next_of_reads (.inl rfl) hus
    have hle := Lexicon.length_of_reads hts
    have hatom := iharg (by omega : mid.length ≤ n) hus hequals
    rw [ihfn hinp hts hmid]
    exact chainFrom_of_atomOf hatom hshorter
  | spine spine ih =>
    intro hclosing
    rw [ih hinp hreads (hclosing.next_ne (by decide) (by decide))]
    exact chainFrom_of_closing hclosing
  | reaching atom ih =>
    intro hclosing
    have hatom : atomOf (nested exprOf n) inp = only (.ok _) rest := ih hinp hreads hclosing
    rw [exprOf_eq_chainl1, chainl1_of_only hatom]
    exact chainFrom_of_closing hclosing
  | appReaching hfn harg ihfn iharg =>
    intro hclosing
    obtain ⟨mid, hts, hus⟩ := Lexicon.reads_append.mp hreads
    obtain ⟨hmid, hshorter⟩ := harg.next_of_reads (.inr rfl) hus
    have hle := Lexicon.length_of_reads hts
    have hatom := iharg (by omega : mid.length ≤ n) hus hclosing
    rw [ihfn hinp hts hmid, chainFrom_of_atomOf hatom hshorter]
    exact chainFrom_of_closing hclosing

/-- A text whose tokens have a maximal derivation is read as the term of the derivation. -/
theorem parseTerm_of_maximal {text : Text} {tokens : List Token}
    (hlex : lexicon.tokens? text = some tokens) (h : Maximal .whole tokens term) :
    parseTerm text = .ok term := by
  have hreads := Lexicon.tokens?_eq_some_iff.mp hlex
  have hfollows := follows_of_maximal h (Nat.le_refl _) hreads closing_nil
  have hexpr : expr (skipLayout text) = .ok [(term, [])] := by
    unfold expr
    rw [recursive_apply]
    exact hfollows
  exact run_of_complete hexpr rfl

end Backtrack.Lambda
