import Backtrack.Proofs.Chain
import Backtrack.Proofs.Repetition

/-!
# The preferred repetition

`repeatFirst` goes on, at each step, with the first outcome that reads something.  The main
statement compares it with the search for all repetitions: where the search ends, `repeatFirst` makes
its first outcome, and a fault that `repeatFirst` meets is met by the search too.  `Preferred` says
both at once, so that one induction on the committed run is enough.

A parser with at most one outcome leaves the recursion nothing else to run.  For such a parser,
committing to the preferred repetition changes nothing, faults included.
-/

namespace Backtrack.Parser

variable {α : Type} {p : Parser α} {inp : Text} {outcomes : Outcomes α}

/-! ## The first outcome that reads something -/

theorem firstConsuming_eq_none_iff :
    firstConsuming inp outcomes = none ↔
      ∀ outcome ∈ outcomes, ¬ outcome.2.length < inp.length := by
  simp [firstConsuming]

theorem firstConsuming_cons_of_shorter {outcome : α × Text} (h : outcome.2.length < inp.length) :
    firstConsuming inp (outcome :: outcomes) = some outcome :=
  List.find?_cons_of_pos (decide_eq_true h)

theorem firstConsuming_cons_of_not_shorter {outcome : α × Text}
    (h : ¬ outcome.2.length < inp.length) :
    firstConsuming inp (outcome :: outcomes) = firstConsuming inp outcomes :=
  List.find?_cons_of_neg (by simpa using h)

theorem repetitionsFrom_of_firstConsuming_eq_none (h : firstConsuming inp outcomes = none) :
    repetitionsFrom p inp outcomes = .ok [([], inp)] := by
  induction outcomes with
  | nil => rfl
  | cons outcome outcomes ih =>
    by_cases shorter : outcome.2.length < inp.length
    · rw [firstConsuming_cons_of_shorter shorter] at h
      contradiction
    · rw [firstConsuming_cons_of_not_shorter shorter] at h
      rw [repetitionsFrom_skip p shorter, ih h]

/-- Outcomes that read nothing are passed over. -/
theorem repetitionsFrom_of_firstConsuming_eq_some {outcome : α × Text}
    (h : firstConsuming inp outcomes = some outcome) :
    ∃ pending, repetitionsFrom p inp outcomes = repetitionsFrom p inp (outcome :: pending) := by
  induction outcomes with
  | nil => contradiction
  | cons head tail ih =>
    by_cases shorter : head.2.length < inp.length
    · rw [firstConsuming_cons_of_shorter shorter, Option.some.injEq] at h
      exact ⟨tail, by rw [h]⟩
    · rw [firstConsuming_cons_of_not_shorter shorter] at h
      rw [repetitionsFrom_skip p shorter]
      exact ih h

/-! ## Every parser -/

theorem repetitions_of_firstConsuming_eq_none (hrun : p inp = .ok outcomes)
    (h : firstConsuming inp outcomes = none) : repetitions p inp = .ok [([], inp)] := by
  rw [repetitions_of_ok hrun, repetitionsFrom_of_firstConsuming_eq_none h]

/-- The recursion goes on first where the committed run goes on. -/
theorem repetitions_of_firstConsuming_eq_some (hrun : p inp = .ok outcomes) {value : α} {rest : Text}
    (h : firstConsuming inp outcomes = some (value, rest)) :
    ∃ pending, repetitions p inp = (do
      let front ← repetitions p rest
      let back ← repetitionsFrom p inp pending
      pure (front.map (readAfter [value]) ++ back)) := by
  obtain ⟨pending, hpending⟩ := repetitionsFrom_of_firstConsuming_eq_some (p := p) h
  refine ⟨pending, ?_⟩
  rw [repetitions_of_ok hrun, hpending, repetitionsFrom_cons p (length_of_firstConsuming h)]

/-- One result as the first of a list of results, where a fault is met in the order of the list. -/
inductive Preferred {β : Type} : Except Fault β → Except Fault (List β) → Prop
  | head (b : β) (others : List β) : Preferred (.ok b) (.ok (b :: others))
  | fault (fault : Fault) : Preferred (.error fault) (.error fault)
  | beforeFault (b : β) (fault : Fault) : Preferred (.ok b) (.error fault)

theorem Preferred.map_append {β γ : Type} {result : Except Fault β} {all : Except Fault (List β)}
    (h : Preferred result all) (f : β → γ) (more : Except Fault (List γ)) :
    Preferred (f <$> result) (do
      let front ← all
      let back ← more
      pure (front.map f ++ back)) := by
  cases h with
  | head b others =>
    cases more with
    | error fault => exact .beforeFault (f b) fault
    | ok back => exact .head (f b) (others.map f ++ back)
  | fault fault => exact .fault fault
  | beforeFault b fault => exact .beforeFault (f b) fault

theorem preferred_repeatFirst (p : Parser α) (inp : Text) :
    Preferred (repeatFirst p inp) (repetitions p inp) := by
  fun_induction repeatFirst p inp with
  | case1 inp fault hrun =>
    rw [repetitions_of_error hrun]
    exact .fault fault
  | case2 inp outcomes hrun notFound =>
    rw [repetitions_of_firstConsuming_eq_none hrun notFound]
    exact .head ([], inp) []
  | case3 inp outcomes hrun value rest hfound ih =>
    obtain ⟨pending, hall⟩ := repetitions_of_firstConsuming_eq_some hrun hfound
    have hstep := ih.map_append (readAfter [value]) (repetitionsFrom p inp pending)
    rw [hall]
    cases hrest : repeatFirst p rest with
    | error fault => rwa [hrest] at hstep
    | ok run => rwa [hrest] at hstep

/-- There is always a preferred repetition, if all can be found. -/
theorem exists_preferred_of_many {found : Outcomes (List α)} (h : many p inp = .ok found) :
    ∃ preferred others, found = preferred :: others ∧ greedy p inp = .ok [preferred] := by
  have hpreferred := preferred_repeatFirst p inp
  rw [many_eq_iff.mp h] at hpreferred
  generalize hrun : repeatFirst p inp = run at hpreferred
  cases hpreferred with
  | head preferred others =>
    refine ⟨preferred, others, rfl, ?_⟩
    rw [greedy, hrun]
    rfl

/-- Where all repetitions can be found, the committed one is the first of them. -/
theorem greedy_of_many {found : Outcomes (List α)} (h : many p inp = .ok found) :
    greedy p inp = .ok (found.take 1) := by
  obtain ⟨preferred, others, rfl, hgreedy⟩ := exists_preferred_of_many h
  exact hgreedy

theorem many_of_greedy_eq_error {fault : Fault} (h : greedy p inp = .error fault) :
    many p inp = .error fault := by
  have hpreferred := preferred_repeatFirst p inp
  generalize hall : repetitions p inp = all at hpreferred
  rcases error_or_ok_of_bind_eq_error h with hrun | ⟨run, -, hok⟩
  · rw [hrun] at hpreferred
    cases hpreferred with
    | fault => exact many_eq_iff.mpr hall
  · contradiction

/-- The committed repetition is the first of all repetitions where these can be found, and it faults
only where the search for them ends in the same fault. -/
theorem greedy_agrees_with_many (p : Parser α) (inp : Text) :
    (∀ found, many p inp = .ok found →
      ∃ preferred others, found = preferred :: others ∧ greedy p inp = .ok [preferred]) ∧
    ∀ fault, greedy p inp = .error fault → many p inp = .error fault :=
  ⟨fun _ ↦ exists_preferred_of_many, fun _ ↦ many_of_greedy_eq_error⟩

/-- A letter that is read in two ways behind a reading of nothing, and a fault behind a letter. -/
theorem greedy_agrees_with_many_letters :
    many (anyOf [succeed 'z', item, item]) ['a'] =
      .ok [(['a'], []), (['a'], []), ([], ['a'])] ∧
    greedy (anyOf [succeed 'z', item, item]) ['a'] = .ok [(['a'], [])] ∧
    greedy (firstOf [char 'a', ofExcept (.error .overflow)]) ['a', 'b'] = .error .overflow ∧
    many (firstOf [char 'a', ofExcept (.error .overflow)]) ['a', 'b'] = .error .overflow := by
  have hfound : many (anyOf [succeed 'z', item, item]) ['a'] =
      .ok [(['a'], []), (['a'], []), ([], ['a'])] := by
    have hrun : anyOf [succeed 'z', item, item] ['a'] =
        .ok [('z', ['a']), ('a', []), ('a', [])] := rfl
    have hend : anyOf [succeed 'z', item, item] [] = .ok [('z', [])] := rfl
    have hstop : repetitions (anyOf [succeed 'z', item, item]) [] = .ok [([], [])] := by
      rw [repetitions_of_ok hend, repetitionsFrom_skip _ (by decide)]
      rfl
    rw [many_of_ok hrun, repetitions_of_ok hrun, repetitionsFrom_skip _ (by decide),
      repetitionsFrom_cons _ (by decide), repetitionsFrom_cons _ (by decide), hstop]
    rfl
  have hfault : greedy (firstOf [char 'a', ofExcept (.error .overflow)]) ['a', 'b'] =
      .error .overflow := by
    have hend : repeatFirst (firstOf [char 'a', ofExcept (.error .overflow)]) ['b'] =
        .error .overflow := by
      rw [repeatFirst]
      rfl
    have hrun : firstOf [char 'a', ofExcept (.error .overflow)] ['a', 'b'] = .ok [('a', ['b'])] :=
      rfl
    rw [greedy, repeatFirst_of_single hrun (by decide), hend]
    rfl
  obtain ⟨preferred, others, hsame, hgreedy⟩ :=
    (greedy_agrees_with_many (anyOf [succeed 'z', item, item]) ['a']).1 _ hfound
  cases hsame
  exact ⟨hfound, hgreedy, hfault, (greedy_agrees_with_many _ _).2 _ hfault⟩

/-! ## Parsers with at most one outcome -/

theorem Unambiguous.eq_singleton (hp : Unambiguous p) {outcome : α × Text}
    (hrun : p inp = .ok outcomes) (hfound : firstConsuming inp outcomes = some outcome) :
    outcomes = [outcome] := by
  have hmem : outcome ∈ outcomes := List.mem_of_find?_eq_some hfound
  have hlength := Nat.le_antisymm (hp inp outcomes hrun) (List.length_pos_of_mem hmem)
  obtain ⟨only, rfl⟩ := List.length_eq_one_iff.mp hlength
  rw [List.mem_singleton.mp hmem]

/-- The recursion meets no fault that the committed run does not meet. -/
theorem repeatFirst_of_repetitions_eq_error (hp : Unambiguous p) {fault : Fault}
    (h : repetitions p inp = .error fault) : repeatFirst p inp = .error fault := by
  fun_induction repeatFirst p inp with
  | case1 inp other hrun =>
    rw [repetitions_of_error hrun] at h
    cases h
    rfl
  | case2 inp outcomes hrun notFound =>
    rw [repetitions_of_firstConsuming_eq_none hrun notFound] at h
    contradiction
  | case3 inp outcomes hrun value rest hfound ih =>
    have shorter : rest.length < inp.length := length_of_firstConsuming hfound
    rw [repetitions_of_ok hrun, hp.eq_singleton hrun hfound, repetitionsFrom_cons p shorter] at h
    rcases error_or_ok_of_bind_eq_error h with hrest | ⟨front, -, hok⟩
    · rw [ih hrest]
      rfl
    · contradiction

/-- The preferred repetition is found by the search and by the committed run alike. -/
theorem first_many_eq_greedy (hp : Unambiguous p) : first (many p) = greedy p := by
  funext inp
  cases h : many p inp with
  | ok found => rw [first_of_ok h, greedy_of_many h]
  | error fault =>
    have hall : repetitions p inp = .error fault := many_eq_iff.mp h
    rw [first_of_error h, greedy, repeatFirst_of_repetitions_eq_error hp hall]
    rfl

end Backtrack.Parser
