import Backtrack.Proofs.Attempt
import Backtrack.Proofs.Greedy
import Backtrack.Proofs.Revision

/-!
# Committed choice

A place of a grammar is committed if a choice is made to keep to its first alternative that
matches, a repetition to its preferred run, or any part to its preferred outcome.  Each of these
keeps just the first outcome that the place had.

The main statement is that committing only prunes.  However many places of a grammar are committed,
its outcomes on every text are among those that it had, in the same order.  It accepts no text that
it did not accept, and is no more ambiguous.
-/

namespace Backtrack.Parser

variable {α : Type} {p p' : Parser α} {inp text : Text} {outcomes : Outcomes α}

/-- The second parser is the first one, committed. -/
inductive Commits : (α : Type) → Parser α → Parser α → Prop
  | firstOf {α : Type} (ps : List (Parser α)) : Commits α (.anyOf ps) (.firstOf ps)
  | greedy {α : Type} (p : Parser α) : Commits (List α) p.many p.greedy
  | first {α : Type} (p : Parser α) : Commits α p p.first

theorem apply_of_commits (h : Commits α p p') (hrun : p inp = .ok outcomes) :
    p' inp = .ok (outcomes.take 1) := by
  cases h with
  | firstOf ps => exact firstOf_of_anyOf hrun
  | greedy p => exact greedy_of_many hrun
  | first p => exact first_of_ok hrun

theorem related_of_commits (h : Commits α p p') (hp : Returns p) :
    Related (fun _ ↦ List.Sublist) p p' := by
  intro inp
  obtain ⟨outcomes, hrun⟩ := hp inp
  exact ⟨outcomes, outcomes.take 1, hrun, apply_of_commits h hrun, List.take_sublist 1 outcomes⟩

/-- A text is accepted with the number of its complete values, if there are any. -/
theorem exists_verdict_of_ok (hrun : parse p text = .ok outcomes)
    (hle : leastLength text outcomes ≤ text.length) :
    ∃ verdict, (attempt p text).result = .ok verdict ∧
      ((completeValues outcomes = [] ∧ ∀ accepted, verdict ≠ .accepted accepted) ∨
        ∃ value others, completeValues outcomes = value :: others ∧
          verdict = .accepted ⟨value, (value :: others).length⟩) := by
  cases hcomplete : completeValues outcomes with
  | nil =>
    rw [attempt_of_incomplete hrun hcomplete hle]
    exact ⟨_, rfl, .inl ⟨rfl, fun _ ↦ nofun⟩⟩
  | cons value others =>
    rw [attempt_of_complete hrun hcomplete]
    exact ⟨_, rfl, .inr ⟨value, others, rfl, rfl⟩⟩

theorem completeValues_sublist {kept : Outcomes α} (h : kept.Sublist outcomes) :
    (completeValues kept).Sublist (completeValues outcomes) := h.filterMap _

/-- With a part of the outcomes, what is accepted was accepted before, with as many alternatives or
more. -/
theorem exists_verdicts_of_sublist {kept : Outcomes α} (hrun : parse p text = .ok outcomes)
    (hsuffix : ∀ outcome ∈ outcomes, outcome.2 <:+ text) (hkept : parse p' text = .ok kept)
    (hsublist : kept.Sublist outcomes) :
    ∃ before after, (attempt p text).result = .ok before ∧ (attempt p' text).result = .ok after ∧
      ∀ committed, after = .accepted committed →
        ∃ accepted, before = .accepted accepted ∧
          committed.alternatives ≤ accepted.alternatives := by
  have hvalues := completeValues_sublist hsublist
  have hle := leastLength_le hsuffix
  have hle' := leastLength_le fun outcome hmem ↦ hsuffix outcome (hsublist.subset hmem)
  obtain ⟨before, hbefore, hall⟩ := exists_verdict_of_ok hrun hle
  obtain ⟨after, hafter, hpart⟩ := exists_verdict_of_ok hkept hle'
  refine ⟨before, after, hbefore, hafter, fun committed hcommitted ↦ ?_⟩
  rcases hpart with ⟨-, hrejected⟩ | ⟨first, rest, hfewer, haccepted⟩
  · exact absurd hcommitted (hrejected committed)
  rw [hfewer] at hvalues
  rcases hall with ⟨hnone, -⟩ | ⟨value, others, hmore, hverdict⟩
  · rw [hnone] at hvalues
    exact absurd (List.sublist_nil.mp hvalues) (List.cons_ne_nil first rest)
  · rw [hmore] at hvalues
    cases hcommitted.symm.trans haccepted
    exact ⟨_, hverdict, Int.ofNat_le.mpr hvalues.length_le⟩

/-- Committing any places of a grammar leaves it with a part of its outcomes, in the same order, on
every text.  So it has a part of the complete values, accepts no other texts, and counts no more
alternatives. -/
theorem committing_prunes (h : Revised Commits p p') :
    (∀ inp, ∃ outcomes kept, p inp = .ok outcomes ∧ p' inp = .ok kept ∧ kept.Sublist outcomes) ∧
    (∀ text, ∃ values kept, parseAll p text = .ok values ∧ parseAll p' text = .ok kept ∧
      kept.Sublist values) ∧
    (∀ text, ∃ before after,
      (attempt p text).result = .ok before ∧ (attempt p' text).result = .ok after ∧
      ∀ committed, after = .accepted committed →
        ∃ accepted, before = .accepted accepted ∧
          committed.alternatives ≤ accepted.alternatives) := by
  have hrelated : Related (fun _ ↦ List.Sublist) p p' :=
    h.related comparison_sublist related_of_commits
  have hparse := hrelated.parse comparison_sublist
  refine ⟨hrelated, fun text ↦ ?_, fun text ↦ ?_⟩
  · obtain ⟨outcomes, kept, hrun, hkept, hsublist⟩ := hparse text
    exact ⟨_, _, parseAll_of_ok hrun, parseAll_of_ok hkept, completeValues_sublist hsublist⟩
  · obtain ⟨outcomes, kept, hrun, hkept, hsublist⟩ := hparse text
    have hsuffix := h.leavesSuffixes.parse.suffix_of_mem hrun
    exact exists_verdicts_of_sublist hrun hsuffix hkept hsublist

/-- Words of one and of two letters, and the committed choice and repetition of the shorter ones. -/
theorem committing_prunes_words :
    Revised Commits (many (anyOf [string ['a'], string ['a', 'a']]))
      (greedy (firstOf [string ['a'], string ['a', 'a']])) ∧
    parseAll (greedy (firstOf [string ['a'], string ['a', 'a']])) ['a', 'a'] =
      .ok [[['a'], ['a']]] ∧
    ∃ values, parseAll (many (anyOf [string ['a'], string ['a', 'a']])) ['a', 'a'] = .ok values ∧
      [[['a'], ['a']]].Sublist values := by
  have hwords : Revised Commits (anyOf [string ['a'], string ['a', 'a']])
      (anyOf [string ['a'], string ['a', 'a']]) :=
    .words [['a'], ['a', 'a']]
  have hrevised : Revised Commits (many (anyOf [string ['a'], string ['a', 'a']]))
      (greedy (firstOf [string ['a'], string ['a', 'a']])) :=
    .change (.many (.change hwords (.firstOf _))) (.greedy _)
  have hkept : parseAll (greedy (firstOf [string ['a'], string ['a', 'a']])) ['a', 'a'] =
      .ok [[['a'], ['a']]] := eq_ok_of_toOption (by decide +kernel)
  obtain ⟨values, kept, hvalues, hsame, hsublist⟩ := (committing_prunes hrevised).2.1 ['a', 'a']
  cases hkept.symm.trans hsame
  exact ⟨hrevised, hkept, values, hvalues, hsublist⟩

end Backtrack.Parser
