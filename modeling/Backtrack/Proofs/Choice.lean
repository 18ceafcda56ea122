import Backtrack.Proofs.Outcome

/-!
# Committed and free choice

A free choice runs all of its alternatives.  A committed choice is decided by the first alternative
that has an outcome or faults: those before it have no outcome, and those behind it are not run.

The main statement says what this comes to.  Where the free choice can be run, the committed one
keeps the first of its outcomes.  A fault of the committed choice is the fault of an alternative
with none before it that has an outcome.  Behind an alternative with an outcome there can be any
others, also ones that fault.
-/

namespace Backtrack.Parser

variable {α : Type} {p p' : Parser α} {ps ps' before : List (Parser α)} {inp : Text}
  {outcomes : Outcomes α} {fault : Fault}

/-! ## The alternative that decides -/

/-- How a committed choice ends.  No alternative has an outcome, or one of them decides, by its
fault or by its preferred outcome, and none before it has an outcome. -/
inductive Decision (ps : List (Parser α)) (inp : Text) : Except Fault (Outcomes α) → Prop
  | none (hall : ∀ p ∈ ps, p inp = .ok []) : Decision ps inp (.ok [])
  | fault (before : List (Parser α)) (p : Parser α) (after : List (Parser α)) {fault : Fault}
    (hps : ps = before ++ p :: after) (hbefore : ∀ q ∈ before, q inp = .ok [])
    (hp : p inp = .error fault) : Decision ps inp (.error fault)
  | outcome (before : List (Parser α)) (p : Parser α) (after : List (Parser α))
    {outcome : α × Text} {others : Outcomes α} (hps : ps = before ++ p :: after)
    (hbefore : ∀ q ∈ before, q inp = .ok []) (hp : p inp = .ok (outcome :: others)) :
    Decision ps inp (.ok [outcome])

theorem Decision.cons {result : Except Fault (Outcomes α)} (hp : p inp = .ok [])
    (h : Decision ps inp result) : Decision (p :: ps) inp result := by
  cases h with
  | none hall => exact .none (List.forall_mem_cons.mpr ⟨hp, hall⟩)
  | fault before q after hps hbefore hq =>
    exact .fault (p :: before) q after (congrArg (p :: ·) hps)
      (List.forall_mem_cons.mpr ⟨hp, hbefore⟩) hq
  | outcome before q after hps hbefore hq =>
    exact .outcome (p :: before) q after (congrArg (p :: ·) hps)
      (List.forall_mem_cons.mpr ⟨hp, hbefore⟩) hq

theorem decision_firstOf (ps : List (Parser α)) (inp : Text) :
    Decision ps inp (firstOf ps inp) := by
  have hempty : ∀ q ∈ ([] : List (Parser α)), q inp = .ok [] := fun q hq ↦
    absurd hq List.not_mem_nil
  induction ps with
  | nil => exact .none hempty
  | cons p ps ih =>
    cases hp : p inp with
    | error fault =>
      rw [firstOf_cons_of_error hp]
      exact .fault [] p ps rfl hempty hp
    | ok outcomes =>
      cases outcomes with
      | nil =>
        rw [firstOf_cons_of_nil hp]
        exact ih.cons hp
      | cons outcome others =>
        rw [firstOf_cons_of_cons hp]
        exact .outcome [] p ps rfl hempty hp

theorem eq_nil_of_firstOf (h : firstOf ps inp = .ok []) : ∀ p ∈ ps, p inp = .ok [] := by
  have hdecision := decision_firstOf ps inp
  rw [h] at hdecision
  cases hdecision with
  | none hall => exact hall

theorem firstOf_append_of_nil (hbefore : ∀ q ∈ before, q inp = .ok []) (ps : List (Parser α)) :
    firstOf (before ++ ps) inp = firstOf ps inp := by
  induction before with
  | nil => rfl
  | cons q before ih =>
    obtain ⟨hq, hbefore⟩ := List.forall_mem_cons.mp hbefore
    rw [List.cons_append, firstOf_cons_of_nil hq, ih hbefore]

theorem firstOf_eq_error_iff : firstOf ps inp = .error fault ↔
    ∃ before p after, ps = before ++ p :: after ∧ (∀ q ∈ before, q inp = .ok []) ∧
      p inp = .error fault := by
  constructor
  · intro h
    have hdecision := decision_firstOf ps inp
    rw [h] at hdecision
    cases hdecision with
    | fault before p after hps hbefore hp => exact ⟨before, p, after, hps, hbefore, hp⟩
  · rintro ⟨before, p, after, rfl, hbefore, hp⟩
    rw [firstOf_append_of_nil hbefore, firstOf_cons_of_error hp]

/-! ## Alternatives that are replaced -/

theorem firstOf_cons_congr (h : p inp = p' inp) (hps : firstOf ps inp = firstOf ps' inp) :
    firstOf (p :: ps) inp = firstOf (p' :: ps') inp := by
  cases hrun : p inp with
  | error fault => rw [firstOf_cons_of_error hrun, firstOf_cons_of_error (h ▸ hrun)]
  | ok outcomes =>
    cases outcomes with
    | nil => rw [firstOf_cons_of_nil hrun, firstOf_cons_of_nil (h ▸ hrun), hps]
    | cons outcome others => rw [firstOf_cons_of_cons hrun, firstOf_cons_of_cons (h ▸ hrun)]

theorem firstOf_append_congr (before : List (Parser α)) (h : firstOf ps inp = firstOf ps' inp) :
    firstOf (before ++ ps) inp = firstOf (before ++ ps') inp := by
  induction before with
  | nil => exact h
  | cons q before ih => exact firstOf_cons_congr rfl ih

/-- Behind an alternative with an outcome it does not matter what stands. -/
theorem firstOf_append_cons_of_ne_nil (hp : p inp = .ok outcomes) (hne : outcomes ≠ [])
    (before after others : List (Parser α)) :
    firstOf (before ++ p :: after) inp = firstOf (before ++ p :: others) inp := by
  apply firstOf_append_congr
  cases outcomes with
  | nil => contradiction
  | cons outcome more => rw [firstOf_cons_of_cons hp, firstOf_cons_of_cons hp]

/-! ## The free choice -/

/-- If all alternatives can be run, the committed choice is for the first of their outcomes. -/
theorem firstOf_of_anyOf (h : anyOf ps inp = .ok outcomes) :
    firstOf ps inp = .ok (outcomes.take 1) := by
  induction ps generalizing outcomes with
  | nil =>
    cases h
    rfl
  | cons p ps ih =>
    rw [anyOf_cons] at h
    obtain ⟨front, hfront, hback⟩ := exists_of_bind_eq_ok h
    obtain ⟨back, hrest, hsame⟩ := exists_of_bind_eq_ok hback
    cases hsame
    cases front with
    | nil => rw [firstOf_cons_of_nil hfront, ih hrest, List.nil_append]
    | cons outcome front => exact firstOf_cons_of_cons hfront ps

/-- A committed choice is the first outcome of the free choice, where that can be run.  It faults
just if an alternative faults before any other has an outcome, and does not depend on what stands
behind an alternative that has one. -/
theorem firstOf_commits (ps : List (Parser α)) (inp : Text) :
    (∀ outcomes, anyOf ps inp = .ok outcomes → firstOf ps inp = .ok (outcomes.take 1)) ∧
    (∀ fault, firstOf ps inp = .error fault ↔
      ∃ before p after, ps = before ++ p :: after ∧ (∀ q ∈ before, q inp = .ok []) ∧
        p inp = .error fault) ∧
    ∀ before p after outcomes, ps = before ++ p :: after → p inp = .ok outcomes →
      outcomes ≠ [] → ∀ others, firstOf (before ++ p :: others) inp = firstOf ps inp := by
  refine ⟨fun outcomes ↦ firstOf_of_anyOf, fun fault ↦ firstOf_eq_error_iff, ?_⟩
  intro before p after outcomes hps hp hne others
  rw [hps]
  exact firstOf_append_cons_of_ne_nil hp hne before others after

/-- Words that do not match and that match twice, and an undefined rule behind them and before. -/
theorem firstOf_commits_undefined :
    anyOf [string ['b'], string ['a'], string ['a', 'a']] ['a', 'a'] =
      .ok [(['a'], ['a']), (['a', 'a'], [])] ∧
    firstOf [string ['b'], string ['a'], string ['a', 'a']] ['a', 'a'] = .ok [(['a'], ['a'])] ∧
    firstOf [string ['b'], string ['a'], fun _ ↦ .error (.undefinedRule none)] ['a', 'a'] =
      .ok [(['a'], ['a'])] ∧
    firstOf [string ['b'], fun _ ↦ .error (.undefinedRule none), string ['a']] ['a', 'a'] =
      .error (.undefinedRule none) := by
  have hall : anyOf [string ['b'], string ['a'], string ['a', 'a']] ['a', 'a'] =
      .ok [(['a'], ['a']), (['a', 'a'], [])] := rfl
  have hfirst := (firstOf_commits _ _).1 _ hall
  have hbehind := (firstOf_commits [string ['b'], string ['a'], string ['a', 'a']] ['a', 'a']).2.2
    [string ['b']] (string ['a']) [string ['a', 'a']] [(['a'], ['a'])] rfl rfl
    (List.cons_ne_nil _ _) [fun _ ↦ .error (.undefinedRule none)]
  have hfault := ((firstOf_commits
    [string ['b'], fun _ ↦ .error (.undefinedRule none), string ['a']] ['a', 'a']).2.1 _).mpr
    ⟨[string ['b']], fun _ ↦ .error (.undefinedRule none), [string ['a']], rfl,
      List.forall_mem_singleton.mpr rfl, rfl⟩
  exact ⟨hall, hfirst, hbehind.trans hfirst, hfault⟩

end Backtrack.Parser
