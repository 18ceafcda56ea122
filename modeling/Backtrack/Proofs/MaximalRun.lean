import Backtrack.Proofs.Greedy
import Backtrack.Proofs.Returns
import Mathlib.Logic.ExistsUnique

/-!
# The run of a parser with at most one outcome

A parser with at most one outcome can be repeated in one way only: it is applied to what it leaves, as
long as it leaves less.  The main statement is that repetition finds the front parts of this run, the
longest first, so that each outcome leaves more than those before it.  One or more repetitions are all
of these but the empty one.  Of a list with separators the same holds for the run that goes on, behind
the first element, with a separator and an element at each step.

The run ends unless the parser faults where the run has come to; a list faults only if the separator
does.
-/

namespace Backtrack.Parser

variable {α β : Type} {p q : Parser α} {sep : Parser β} {inp rest : Text} {value : α}
  {steps other : List (α × Text)}

/-- The steps of repeating `p` from a text on, each with the value read and the text left, up to where
`p` has no outcome that is shorter. -/
inductive MaximalRun (p : Parser α) : Text → List (α × Text) → Prop
  | stop {inp : Text} {outcomes : Outcomes α} (hrun : p inp = .ok outcomes)
      (hstop : ∀ outcome ∈ outcomes, ¬ outcome.2.length < inp.length) : MaximalRun p inp []
  | step {inp rest : Text} {value : α} {steps : List (α × Text)} (hrun : p inp = .ok [(value, rest)])
      (shorter : rest.length < inp.length) (hsteps : MaximalRun p rest steps) :
    MaximalRun p inp ((value, rest) :: steps)

/-- A step of `p`, and then the steps of repeating a separator with `p` behind it. -/
inductive SeparatedRun (p : Parser α) (sep : Parser β) (inp : Text) : List (α × Text) → Prop
  | mk {rest : Text} {value : α} {steps : List (α × Text)} (hrun : p inp = .ok [(value, rest)])
      (hsteps : MaximalRun (bind sep fun _ ↦ p) rest steps) :
    SeparatedRun p sep inp ((value, rest) :: steps)

/-- The text that is left when these steps are made. -/
def leftAfter (inp : Text) (steps : List (α × Text)) : Text := (steps.map Prod.snd).getLastD inp

/-- The outcomes of stopping after each number of these steps, the largest number first. -/
def stopsAlong (inp : Text) (steps : List (α × Text)) : Outcomes (List α) :=
  (List.range (steps.length + 1)).reverse.map fun n ↦
    ((steps.take n).map Prod.fst, leftAfter inp (steps.take n))

/-- Each outcome has read more values than those behind it, and leaves less. -/
def LongestFirst (outcomes : Outcomes (List α)) : Prop :=
  outcomes.Pairwise fun longer shorter ↦
    shorter.1.length < longer.1.length ∧ longer.2.length < shorter.2.length

/-! ## Stopping along a run -/

theorem leftAfter_cons (inp : Text) (step : α × Text) (steps : List (α × Text)) :
    leftAfter inp (step :: steps) = leftAfter step.2 steps := by
  rw [leftAfter, leftAfter, List.map_cons, List.getLastD_cons]

theorem stopsAlong_cons (inp : Text) (step : α × Text) (steps : List (α × Text)) :
    stopsAlong inp (step :: steps) =
      (stopsAlong step.2 steps).map (readAfter [step.1]) ++ [([], inp)] := by
  unfold stopsAlong
  rw [List.length_cons, List.range_succ_eq_map, List.reverse_cons, List.map_append,
    ← List.map_reverse, List.map_map, List.map_map]
  congr 1
  apply List.map_congr_left
  intro n _
  rw [Function.comp_apply, Function.comp_apply, List.take_succ_cons, leftAfter_cons]
  rfl

theorem length_stopsAlong (inp : Text) (steps : List (α × Text)) :
    (stopsAlong inp steps).length = steps.length + 1 := by
  simp [stopsAlong]

theorem take_stopsAlong_cons (inp : Text) (step : α × Text) (steps : List (α × Text)) :
    (stopsAlong inp (step :: steps)).take (step :: steps).length =
      (stopsAlong step.2 steps).map (readAfter [step.1]) := by
  rw [stopsAlong_cons, List.take_left']
  rw [List.length_map, length_stopsAlong, List.length_cons]

theorem LongestFirst.map_readAfter {outcomes : Outcomes (List α)} (h : LongestFirst outcomes)
    (value : α) : LongestFirst (outcomes.map (readAfter [value])) := by
  refine List.pairwise_map.mpr (h.imp ?_)
  intro longer shorter hlengths
  simpa [readAfter] using hlengths

theorem MaximalRun.length_le (h : MaximalRun p inp steps) :
    ∀ outcome ∈ stopsAlong inp steps, outcome.2.length ≤ inp.length := by
  induction h with
  | stop =>
    intro outcome hmem
    rw [List.mem_singleton.mp hmem]
    exact Nat.le_refl _
  | step _ shorter _ ih =>
    intro outcome hmem
    rw [stopsAlong_cons, List.mem_append, List.mem_singleton] at hmem
    rcases hmem with hmem | rfl
    · obtain ⟨longer, hlonger, rfl⟩ := List.mem_map.mp hmem
      exact Nat.le_trans (ih longer hlonger) (Nat.le_of_lt shorter)
    · exact Nat.le_refl _

theorem MaximalRun.longestFirst (h : MaximalRun p inp steps) :
    LongestFirst (stopsAlong inp steps) := by
  induction h with
  | stop => exact List.pairwise_singleton _ _
  | step _ shorter hsteps ih =>
    rw [stopsAlong_cons]
    refine List.pairwise_append.mpr ⟨ih.map_readAfter _, List.pairwise_singleton _ _, ?_⟩
    intro longer hlonger stopped hstopped
    obtain ⟨outcome, hmem, rfl⟩ := List.mem_map.mp hlonger
    rw [List.mem_singleton.mp hstopped]
    exact ⟨Nat.succ_pos _, Nat.lt_of_le_of_lt (hsteps.length_le outcome hmem) shorter⟩

/-! ## Repetition along a run -/

theorem MaximalRun.many_eq (h : MaximalRun p inp steps) :
    many p inp = .ok (stopsAlong inp steps) := by
  rw [many_eq_iff]
  induction h with
  | stop hrun hstop =>
    exact repetitions_of_firstConsuming_eq_none hrun (firstConsuming_eq_none_iff.mpr hstop)
  | step hrun shorter _ ih => rw [repetitions_of_single hrun shorter ih, stopsAlong_cons]

/-- Behind an only outcome come all ways to repeat `q` from there. -/
theorem bind_many_of_single {found : Outcomes (List α)} (hrun : p inp = .ok [(value, rest)])
    (hmany : many q rest = .ok found) :
    bind p (fun x ↦ map (fun xs ↦ x :: xs) (many q)) inp =
      .ok (found.map (readAfter [value])) := by
  rw [bind_of_single hrun]
  exact map_of_ok hmany _

theorem MaximalRun.many1_eq (h : MaximalRun p inp steps) (hrun : p inp = .ok [(value, rest)])
    (shorter : rest.length < inp.length) :
    many1 p inp = .ok ((stopsAlong inp steps).take steps.length) := by
  cases h with
  | stop hend hstop =>
    cases hrun.symm.trans hend
    exact absurd shorter (hstop _ List.mem_cons_self)
  | step hstep _ hsteps =>
    rw [take_stopsAlong_cons]
    exact bind_many_of_single hstep hsteps.many_eq

theorem SeparatedRun.sepBy1_eq (h : SeparatedRun p sep inp steps) :
    sepBy1 p sep inp = .ok ((stopsAlong inp steps).take steps.length) := by
  cases h with
  | mk hrun hsteps =>
    rw [take_stopsAlong_cons]
    exact bind_many_of_single hrun hsteps.many_eq

theorem SeparatedRun.longestFirst (h : SeparatedRun p sep inp steps) :
    LongestFirst ((stopsAlong inp steps).take steps.length) := by
  cases h with
  | mk hrun hsteps =>
    rw [take_stopsAlong_cons]
    exact hsteps.longestFirst.map_readAfter _

/-! ## The run from a text on -/

theorem MaximalRun.unique (h : MaximalRun p inp steps) (hother : MaximalRun p inp other) :
    other = steps := by
  induction h generalizing other with
  | stop hrun hstop =>
    cases hother with
    | stop => rfl
    | step hstep shorter =>
      cases hrun.symm.trans hstep
      exact absurd shorter (hstop _ List.mem_cons_self)
  | step hrun shorter _ ih =>
    cases hother with
    | stop hend hstop =>
      cases hrun.symm.trans hend
      exact absurd shorter (hstop _ List.mem_cons_self)
    | step hstep _ hsteps =>
      cases hrun.symm.trans hstep
      rw [ih hsteps]

/-- The run goes on to where the parser has no shorter outcome, or faults. -/
theorem exists_maximalRun_or_fault (hp : Unambiguous p) (inp : Text) :
    (∃ steps, MaximalRun p inp steps) ∨
      ∃ fault place, p place = .error fault ∧ many p inp = .error fault := by
  induction hlen : inp.length using Nat.strongRecOn generalizing inp with
  | ind n ih =>
    cases hrun : p inp with
    | error fault => exact .inr ⟨fault, inp, hrun, many_of_error hrun⟩
    | ok outcomes =>
      cases hfound : firstConsuming inp outcomes with
      | none => exact .inl ⟨[], .stop hrun (firstConsuming_eq_none_iff.mp hfound)⟩
      | some outcome =>
        obtain ⟨value, rest⟩ := outcome
        have shorter : rest.length < inp.length := length_of_firstConsuming hfound
        rw [hp.eq_singleton hrun hfound] at hrun
        rcases ih rest.length (hlen ▸ shorter) rest rfl with
          ⟨steps, hsteps⟩ | ⟨fault, place, hplace, hmany⟩
        · exact .inl ⟨_, .step hrun shorter hsteps⟩
        · refine .inr ⟨fault, place, hplace, ?_⟩
          rw [many_of_ok hrun, repetitions_of_ok hrun, repetitionsFrom_cons p shorter,
            many_eq_iff.mp hmany]
          rfl

theorem exists_maximalRun (hreturns : Returns p) (hp : Unambiguous p) (inp : Text) :
    ∃ steps, MaximalRun p inp steps := by
  rcases exists_maximalRun_or_fault hp inp with hsteps | ⟨fault, place, hplace, -⟩
  · exact hsteps
  · obtain ⟨outcomes, hok⟩ := hreturns place
    exact absurd (hok.symm.trans hplace) (by simp)

/-! ## Separators -/

theorem Unambiguous.bind {f : α → Parser β} (hp : Unambiguous p) (hf : ∀ x, Unambiguous (f x)) :
    Unambiguous (p.bind f) := by
  intro inp outcomes h
  obtain ⟨found, hfound, hgather⟩ := exists_of_bind_eq_ok h
  match found, hp inp found hfound with
  | [], _ =>
    cases hgather
    exact Nat.zero_le 1
  | [(value, rest)], _ =>
    rw [gather_singleton] at hgather
    exact hf value rest outcomes hgather

theorem unambiguous_satisfy (accepts : Char → Bool) : Unambiguous (satisfy accepts) := by
  intro inp outcomes h
  cases inp with
  | nil =>
    cases h
    exact Nat.zero_le 1
  | cons c rest =>
    rw [satisfy_cons, Except.ok.injEq] at h
    rw [← h]
    split <;> simp

/-- A separator with a parser behind it that does not fault can fault only itself. -/
theorem separator_of_fault (hreturns : Returns p) {fault : Fault}
    (h : bind sep (fun _ ↦ p) inp = .error fault) : sep inp = .error fault := by
  rcases error_or_ok_of_bind_eq_error h with hsep | ⟨found, -, hgather⟩
  · exact hsep
  · obtain ⟨⟨x, rest⟩, -, hfault⟩ := exists_of_gather_eq_error hgather
    obtain ⟨outcomes, hok⟩ := hreturns rest
    exact absurd (hok.symm.trans hfault) (by simp)

theorem SeparatedRun.unique (h : SeparatedRun p sep inp steps)
    (hother : SeparatedRun p sep inp other) : other = steps := by
  cases h with
  | mk hrun hsteps =>
    cases hother with
    | mk hrun' hsteps' =>
      cases hrun.symm.trans hrun'
      rw [hsteps.unique hsteps']

/-- The run of a list goes on to its end, or to a fault of the separator. -/
theorem exists_separatedRun_or_fault (hreturns : Returns p) (hp : Unambiguous p)
    (hsep : Unambiguous sep) (hrun : p inp = .ok [(value, rest)]) :
    (∃ steps, SeparatedRun p sep inp steps) ∨
      ∃ fault place, sep place = .error fault ∧ sepBy1 p sep inp = .error fault := by
  have hstep : Unambiguous (bind sep fun _ ↦ p) := hsep.bind fun _ ↦ hp
  rcases exists_maximalRun_or_fault hstep rest with ⟨steps, hsteps⟩ | ⟨fault, place, hplace, hmany⟩
  · exact .inl ⟨_, .mk hrun hsteps⟩
  · refine .inr ⟨fault, place, separator_of_fault hreturns hplace, ?_⟩
    rw [sepBy1, bind_of_single hrun, map_of_error hmany]

/-- Repetition of a parser with at most one outcome lists the front parts of its run, the longest
first: `many` all of them, and `many1` all but the empty one if anything is read.  So does a list with
separators with the run that takes a separator before each further element, unless the separator
faults. -/
theorem repetition_lists_run {p : Parser α} {sep : Parser β} (hreturns : Returns p)
    (hp : Unambiguous p) (hsep : Unambiguous sep) (inp : Text) :
    (∃! steps, MaximalRun p inp steps) ∧
    (∀ steps, MaximalRun p inp steps →
      many p inp = .ok (stopsAlong inp steps) ∧ LongestFirst (stopsAlong inp steps) ∧
      ∀ value rest, p inp = .ok [(value, rest)] → rest.length < inp.length →
        many1 p inp = .ok ((stopsAlong inp steps).take steps.length)) ∧
    (p inp = .ok [] → many1 p inp = .ok [] ∧ sepBy1 p sep inp = .ok []) ∧
    (∀ value rest, p inp = .ok [(value, rest)] →
      (∃! steps, SeparatedRun p sep inp steps) ∨
        ∃ fault place, sep place = .error fault ∧ sepBy1 p sep inp = .error fault) ∧
    ∀ steps, SeparatedRun p sep inp steps →
      sepBy1 p sep inp = .ok ((stopsAlong inp steps).take steps.length) ∧
      LongestFirst ((stopsAlong inp steps).take steps.length) := by
  refine ⟨?run, ?front, ?none, ?separated, ?list⟩
  case run =>
    obtain ⟨steps, hsteps⟩ := exists_maximalRun hreturns hp inp
    exact ⟨steps, hsteps, fun _ ↦ hsteps.unique⟩
  case front =>
    intro steps hsteps
    refine ⟨hsteps.many_eq, hsteps.longestFirst, ?_⟩
    intro value rest hrun shorter
    exact hsteps.many1_eq hrun shorter
  case none =>
    intro hrun
    exact ⟨bind_of_nil hrun _, bind_of_nil hrun _⟩
  case separated =>
    intro value rest hrun
    refine (exists_separatedRun_or_fault hreturns hp hsep hrun).imp_left ?_
    rintro ⟨steps, hsteps⟩
    exact ⟨steps, hsteps, fun _ ↦ hsteps.unique⟩
  case list =>
    intro steps hsteps
    exact ⟨hsteps.sepBy1_eq, hsteps.longestFirst⟩

/-- Letters up to a digit, and letters with commas between them, with a comma left over. -/
theorem repetition_lists_run_letters :
    many lower "ab1".toList =
      .ok [("ab".toList, "1".toList), ("a".toList, "b1".toList), ([], "ab1".toList)] ∧
    many1 lower "ab1".toList = .ok [("ab".toList, "1".toList), ("a".toList, "b1".toList)] ∧
    many1 lower "1".toList = .ok [] ∧
    sepBy1 lower (char ',') "a,b,1".toList =
      .ok [("ab".toList, ",1".toList), ("a".toList, ",b,1".toList)] := by
  have hlower : Returns lower := returns_satisfy _
  have hsingle : Unambiguous lower := unambiguous_satisfy _
  have hcomma : Unambiguous (char ',') := unambiguous_satisfy _
  have hstep : lower "ab1".toList = .ok [('a', "b1".toList)] := rfl
  have hletters : MaximalRun lower "ab1".toList [('a', "b1".toList), ('b', "1".toList)] :=
    .step hstep (by decide) (.step rfl (by decide) (.stop rfl (by simp)))
  have hlist : SeparatedRun lower (char ',') "a,b,1".toList
      [('a', ",b,1".toList), ('b', ",1".toList)] :=
    .mk rfl (.step rfl (by decide) (.stop rfl (by simp)))
  obtain ⟨-, hrun, -⟩ := repetition_lists_run hlower hsingle hcomma "ab1".toList
  obtain ⟨hmany, -, hmany1⟩ := hrun _ hletters
  obtain ⟨-, -, hnone, -⟩ := repetition_lists_run hlower hsingle hcomma "1".toList
  obtain ⟨-, -, -, -, hsep⟩ := repetition_lists_run hlower hsingle hcomma "a,b,1".toList
  exact ⟨hmany, hmany1 _ _ hstep (by decide), (hnone rfl).1, (hsep _ hlist).1⟩

end Backtrack.Parser
