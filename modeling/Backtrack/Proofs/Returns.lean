import Backtrack.Proofs.Repetition

/-!
# Runs without faults

`Returns p` says that no run of `p` is abandoned.  The parsers that everything else is put together
from return.  What a repetition of a parser that returns finds is a matter of lists:
`repetitionsOf` makes it out of the outcomes of the parser.
-/

namespace Backtrack

section Lists

variable {α β : Type} {as : List α}

theorem mapM_eq_ok {f : α → Except Fault β} {g : α → β} (h : ∀ a ∈ as, f a = .ok (g a)) :
    as.mapM f = .ok (as.map g) := by
  induction as with
  | nil => rfl
  | cons a as ih =>
    obtain ⟨hhead, htail⟩ := List.forall_mem_cons.mp h
    rw [List.mapM_cons, hhead, ih htail]
    rfl

theorem gather_eq_ok {f : α → Except Fault (List β)} {g : α → List β}
    (h : ∀ a ∈ as, f a = .ok (g a)) : gather f as = .ok (as.flatMap g) := by
  rw [gather, mapM_eq_ok h]
  rfl

end Lists

namespace Parser

variable {α : Type} {p : Parser α}

/-- Every run of the parser ends. -/
def Returns (p : Parser α) : Prop := ∀ inp, ∃ outcomes, p inp = .ok outcomes

/-- The parsers that read single characters, fixed texts and runs of characters, or nothing. -/
inductive Elementary : {α : Type} → Parser α → Prop
  | succeed {α : Type} (value : α) : Elementary (.succeed value)
  | fail {α : Type} : Elementary (.fail : Parser α)
  | item : Elementary .item
  | satisfy (accepts : Char → Bool) : Elementary (.satisfy accepts)
  | char (c : Char) : Elementary (.char c)
  | string (text : Text) : Elementary (.string text)
  | eof : Elementary .eof
  | digit : Elementary .digit
  | lower : Elementary .lower
  | upper : Elementary .upper
  | letter : Elementary .letter
  | alphanumeric : Elementary .alphanumeric
  | takeWhile (accepts : Char → Bool) : Elementary (.takeWhile accepts)
  | word : Elementary .word

theorem returns_satisfy (accepts : Char → Bool) : Returns (satisfy accepts) := by
  intro inp
  cases inp with
  | nil => exact ⟨[], satisfy_nil accepts⟩
  | cons c rest => exact ⟨_, satisfy_cons accepts c rest⟩

theorem returns_string (text : Text) : Returns (string text) := by
  intro inp
  unfold string
  split
  · exact ⟨_, rfl⟩
  · exact ⟨_, rfl⟩

theorem returns_anyOf {ps : List (Parser α)} (h : ∀ p ∈ ps, Returns p) : Returns (anyOf ps) := by
  intro inp
  induction ps with
  | nil => exact ⟨[], rfl⟩
  | cons p ps ih =>
    obtain ⟨hhead, htail⟩ := List.forall_mem_cons.mp h
    obtain ⟨front, hfront⟩ := hhead inp
    obtain ⟨back, hback⟩ := ih htail
    exact ⟨front ++ back, by rw [anyOf_cons, hfront, hback]; rfl⟩

theorem returns_letter : Returns letter :=
  returns_anyOf (List.forall_mem_cons.mpr
    ⟨returns_satisfy _, List.forall_mem_singleton.mpr (returns_satisfy _)⟩)

theorem returns_alphanumeric : Returns alphanumeric :=
  returns_anyOf (List.forall_mem_cons.mpr
    ⟨returns_letter, List.forall_mem_singleton.mpr (returns_satisfy _)⟩)

theorem Elementary.returns (h : Elementary p) : Returns p := by
  cases h with
  | succeed value => exact fun inp ↦ ⟨_, succeed_apply value inp⟩
  | fail => exact fun inp ↦ ⟨_, fail_apply inp⟩
  | item =>
    intro inp
    cases inp with
    | nil => exact ⟨_, item_nil⟩
    | cons c rest => exact ⟨_, item_cons c rest⟩
  | satisfy accepts => exact returns_satisfy accepts
  | char c => exact returns_satisfy _
  | string text => exact returns_string text
  | eof =>
    intro inp
    cases inp with
    | nil => exact ⟨_, rfl⟩
    | cons c rest => exact ⟨_, rfl⟩
  | digit => exact returns_satisfy _
  | lower => exact returns_satisfy _
  | upper => exact returns_satisfy _
  | letter => exact returns_letter
  | alphanumeric => exact returns_alphanumeric
  | takeWhile accepts => exact fun inp ↦ ⟨_, takeWhile_apply accepts inp⟩
  | word => exact fun inp ↦ ⟨_, rfl⟩

/-! ## Repetition -/

/-- All ways to repeat a parser with these outcomes. -/
def repetitionsOf (outcomes : Text → Outcomes α) (inp : Text) : Outcomes (List α) :=
  ((outcomes inp).flatMap fun (value, rest) ↦
    if rest.length < inp.length then (repetitionsOf outcomes rest).map (readAfter [value])
    else []) ++ [([], inp)]
termination_by inp.length

theorem repetitions_eq_ok {outcomes : Text → Outcomes α} (h : ∀ inp, p inp = .ok (outcomes inp))
    (inp : Text) : repetitions p inp = .ok (repetitionsOf outcomes inp) := by
  induction hlen : inp.length using Nat.strongRecOn generalizing inp with
  | ind n ih =>
    rw [repetitions_of_ok (h inp), repetitionsFrom, repetitionsOf, gather_eq_ok, ok_bind]
    · rfl
    rintro ⟨value, rest⟩ -
    by_cases shorter : rest.length < inp.length
    · simp only [if_pos shorter]
      rw [ih rest.length (hlen ▸ shorter) rest rfl]
      rfl
    · simp only [if_neg shorter, pure_eq_ok]

theorem many_eq_ok {outcomes : Text → Outcomes α} (h : ∀ inp, p inp = .ok (outcomes inp))
    (inp : Text) : many p inp = .ok (repetitionsOf outcomes inp) := by
  rw [many_of_ok (h inp), repetitions_eq_ok h]

end Parser

end Backtrack
