import Backtrack.Proofs.Lambda.Words
import Backtrack.Proofs.Recognition

/-!
# What the parser of terms reads

The main statement is that a term which the parser yields is derived by the tokens that it has read.
Where the parser of terms stops there is never a name, so the `in` behind a defined value is not the
front of a longer word.
-/

namespace Backtrack.Lambda

open Backtrack.Parser

variable {q : Parser Term} {term : Term}

/-- What the parser of terms applies to the terms side by side. -/
def juxtaposition : Parser (Operation Term) := succeed fun fn arg ↦ .ok (.app fn arg)

theorem exprOf_eq_chainl1 (q : Parser Term) : exprOf q = chainl1 (atomOf q) juxtaposition := rfl

theorem lamOf_eq_bind (q : Parser Term) :
    lamOf q = (symbol "\\".toList).bind fun _ ↦ variableName.bind fun x ↦
      (symbol "->".toList).bind fun _ ↦ q.map (Term.lam x) := rfl

theorem letOf_eq_bind (q : Parser Term) :
    letOf q = (symbol "let".toList).bind fun _ ↦ variableName.bind fun x ↦
      (symbol "=".toList).bind fun _ ↦ q.bind fun value ↦
      (symbol "in".toList).bind fun _ ↦ q.map (Term.letIn x value) := rfl

/-- Behind what the parser has read there is no name. -/
def NoNameBehind (q : Parser Term) : Prop :=
  ∀ inp term rest, Yields q inp (term, rest) →
    ∀ name after, lexicon.next rest = some (.word name, after) → ¬ isName name

theorem Derives.ne_nil {kind : Kind} {tokens : List Token} (h : Derives kind tokens term) :
    tokens ≠ [] := by
  induction h with
  | letIn => simp
  | atom atom ih => exact ih
  | app hfn harg ihfn iharg => exact fun hnil ↦ ihfn (List.append_eq_nil_iff.mp hnil).1
  | _ => exact List.cons_ne_nil _ _

theorem recognizes_lamOf (hq : lexicon.Recognizes q (Derives .application)) :
    lexicon.Recognizes (lamOf q) (Derives .atom) := by
  intro inp term rest h
  rw [lamOf_eq_bind, backslash_eq_exactly, arrow_eq_exactly] at h
  obtain ⟨_, first, hbackslash, h⟩ := yields_bind h
  obtain ⟨name, second, hvariable, h⟩ := yields_bind h
  obtain ⟨_, third, harrow, h⟩ := yields_bind h
  obtain ⟨body, hbody, rfl⟩ := yields_map h
  obtain ⟨hword, hname⟩ := yields_variableName_iff.mp hvariable
  obtain ⟨tokens, hreads, hderives⟩ := hq third body rest hbody
  have hbackslashNext := Lexicon.next_of_yields_exactly hbackslash
  have harrowNext := Lexicon.next_of_yields_exactly harrow
  have hall : lexicon.Reads inp (.backslash :: .word name :: .arrow :: tokens) rest :=
    ⟨first, hbackslashNext, second, hword, third, harrowNext, hreads⟩
  exact ⟨_, hall, .lam hname hderives⟩

theorem recognizes_letOf (hq : lexicon.Recognizes q (Derives .application))
    (hbehind : NoNameBehind q) : lexicon.Recognizes (letOf q) (Derives .atom) := by
  intro inp term rest h
  rw [letOf_eq_bind, equals_eq_exactly] at h
  obtain ⟨_, first, hlet, h⟩ := yields_bind h
  obtain ⟨name, second, hvariable, h⟩ := yields_bind h
  obtain ⟨_, third, hequals, h⟩ := yields_bind h
  obtain ⟨value, fourth, hvalue, h⟩ := yields_bind h
  obtain ⟨_, fifth, hin, h⟩ := yields_bind h
  obtain ⟨body, hbody, rfl⟩ := yields_map h
  obtain ⟨head, hhead, hheadReads⟩ := exists_letHead hlet hvariable
  have hequalsNext := Lexicon.next_of_yields_exactly hequals
  obtain ⟨ts, hts, hvalueDerives⟩ := hq third value fourth hvalue
  have hinNext := next_of_yields_in hin (hbehind third value fourth hvalue)
  obtain ⟨us, hus, hbodyDerives⟩ := hq fifth body rest hbody
  refine ⟨_, ?_, .letIn hhead hvalueDerives hbodyDerives⟩
  apply Lexicon.reads_append.mpr
  refine ⟨second, hheadReads, third, hequalsNext, ?_⟩
  exact Lexicon.reads_append.mpr ⟨fourth, hts, fifth, hinNext, hus⟩

theorem recognizes_atomOf (hq : lexicon.Recognizes q (Derives .application))
    (hbehind : NoNameBehind q) : lexicon.Recognizes (atomOf q) (Derives .atom) := by
  apply Lexicon.recognizes_firstOf
  intro p hp
  simp only [List.mem_cons, List.not_mem_nil, or_false] at hp
  rcases hp with rfl | rfl | rfl | rfl
  · exact recognizes_lamOf hq
  · exact recognizes_letOf hq hbehind
  · intro inp term rest h
    obtain ⟨name, hvariable, rfl⟩ := yields_map h
    obtain ⟨hnext, hname⟩ := yields_variableName_iff.mp hvariable
    exact ⟨[.word name], Lexicon.reads_singleton.mpr hnext, .var hname⟩
  · unfold parenOf
    rw [openParen_eq_exactly, closeParen_eq_exactly]
    apply (Lexicon.recognizes_middle hq _ _ _ _).mono
    rintro tokens term ⟨inner, rfl, hinner⟩
    exact .paren hinner

theorem recognizes_exprOf (hq : lexicon.Recognizes q (Derives .application))
    (hbehind : NoNameBehind q) : lexicon.Recognizes (exprOf q) (Derives .application) := by
  have hatom := recognizes_atomOf hq hbehind
  apply Lexicon.recognizes_chainl1 hatom (Lexicon.recognizes_succeed _)
  · intro tokens term h
    exact .atom h
  · rintro ts fn us f ws arg term hfn ⟨rfl, rfl⟩ harg happ
    cases happ
    exact .app hfn harg

/-- A name behind a term would have been read as an argument. -/
theorem noNameBehind_exprOf (hq : lexicon.Recognizes q (Derives .application))
    (hbehind : NoNameBehind q) : NoNameBehind (exprOf q) := by
  intro inp term rest h name after hnext hname
  -- The chain has ended, so no atom is read here, and a variable would be one.
  obtain ⟨x, mid, -, hfold⟩ := yields_chainl1 h
  rcases step_of_foldSteps_eq_ok hfold with hnil | ⟨⟨⟨f, arg⟩, last⟩, steps, hstep, hnot⟩
  · have hatom := eq_nil_of_firstOf (eq_nil_of_chainStep_succeed hnil) var (by simp)
    rw [var_of_next hname hnext, Except.ok.injEq] at hatom
    contradiction
  · obtain ⟨start, hstart, harg⟩ := yields_chainStep ⟨_, hstep, List.mem_cons_self⟩
    cases eq_of_yields_single (succeed_apply _ rest) hstart
    obtain ⟨tokens, hreads, hderives⟩ := recognizes_atomOf hq hbehind rest arg last harg
    have hpos := List.length_pos_iff.mpr hderives.ne_nil
    have hlength := Lexicon.length_of_reads hreads
    have hshorter : last.length < rest.length := by omega
    exact hnot hshorter

theorem recognizes_nested_exprOf (n : Nat) :
    lexicon.Recognizes (nested exprOf n) (Derives .application) ∧ NoNameBehind (nested exprOf n) := by
  induction n with
  | zero =>
    have hnone (inp : Text) (outcome : Term × Text) : ¬ Yields (nested exprOf 0) inp outcome :=
      not_yields_of_error (nested_zero exprOf inp) outcome
    exact ⟨fun inp _ _ h ↦ absurd h (hnone inp _), fun inp _ _ h ↦ absurd h (hnone inp _)⟩
  | succ n ih =>
    rw [Lexicon.nested_succ_eq]
    exact ⟨recognizes_exprOf ih.1 ih.2, noNameBehind_exprOf ih.1 ih.2⟩

theorem recognizes_expr : lexicon.Recognizes expr (Derives .application) :=
  Lexicon.recognizes_recursive fun n ↦ (recognizes_nested_exprOf n).1

end Backtrack.Lambda
