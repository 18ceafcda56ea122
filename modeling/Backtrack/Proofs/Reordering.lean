import Backtrack.Proofs.Attempt
import Backtrack.Proofs.Revision

/-!
# The order of alternatives

A grammar is reordered if the alternatives of some of its choices are put into another order.  The
choices have to be open ones, that let every alternative contribute.

The main statement is that only the order of the outcomes depends on the order of the alternatives.
The attempts on a text agree in all but the value that they prefer: in their verdict, in the number
of alternatives, and in the place and the message of a failure.
-/

namespace Backtrack

/-- Two attempts that differ in the preferred value at most: both accept, with as many alternatives,
or both fail in the same place with the same message. -/
structure Attempt.Agree {α : Type} (before after : Attempt α) : Prop where
  log : after.log = before.log
  result : (∃ accepted accepted', before.result = .ok (.accepted accepted) ∧
      after.result = .ok (.accepted accepted') ∧
      accepted'.alternatives = accepted.alternatives) ∨
    ∃ failure, before.result = .ok (.failed failure) ∧ after.result = .ok (.failed failure)

namespace Parser

variable {α : Type} {p p' : Parser α} {inp text : Text} {outcomes reordered : Outcomes α}

/-- The second parser is the first one, its alternatives put into another order. -/
inductive Reorders : (α : Type) → Parser α → Parser α → Prop
  | anyOf {α : Type} {ps ps' : List (Parser α)} (h : ps.Perm ps') :
    Reorders α (.anyOf ps) (.anyOf ps')

theorem exists_anyOf_of_perm {ps ps' : List (Parser α)} (h : ps.Perm ps')
    (hrun : anyOf ps inp = .ok outcomes) :
    ∃ reordered, anyOf ps' inp = .ok reordered ∧ reordered.Perm outcomes := by
  induction h generalizing outcomes with
  | nil => exact ⟨outcomes, hrun, .refl outcomes⟩
  | cons p _ ih =>
    rw [anyOf_cons] at hrun
    obtain ⟨front, hfront, hback⟩ := exists_of_bind_eq_ok hrun
    obtain ⟨back, hrest, hsame⟩ := exists_of_bind_eq_ok hback
    cases hsame
    obtain ⟨back', hrest', hperm⟩ := ih hrest
    refine ⟨front ++ back', ?_, hperm.append_left front⟩
    rw [anyOf_cons, hfront, hrest']
    rfl
  | swap p q ps =>
    rw [anyOf_cons, anyOf_cons] at hrun
    obtain ⟨front, hfront, hback⟩ := exists_of_bind_eq_ok hrun
    obtain ⟨rest, hrest, hsame⟩ := exists_of_bind_eq_ok hback
    obtain ⟨mid, hmid, hlast⟩ := exists_of_bind_eq_ok hrest
    obtain ⟨back, hps, hjoin⟩ := exists_of_bind_eq_ok hlast
    cases hsame
    cases hjoin
    refine ⟨mid ++ (front ++ back), ?_, ?_⟩
    · rw [anyOf_cons, anyOf_cons, hfront, hmid, hps]
      rfl
    · rw [← List.append_assoc, ← List.append_assoc]
      exact List.perm_append_comm.append_right back
  | trans _ _ ih ih' =>
    obtain ⟨mid, hmid, hperm⟩ := ih hrun
    obtain ⟨reordered, hreordered, hperm'⟩ := ih' hmid
    exact ⟨reordered, hreordered, hperm'.trans hperm⟩

theorem related_of_reorders (h : Reorders α p p') (hp : Returns p) :
    Related (fun _ ↦ List.Perm) p p' := by
  intro inp
  obtain ⟨outcomes, hrun⟩ := hp inp
  cases h with
  | anyOf h =>
    obtain ⟨reordered, hreordered, hperm⟩ := exists_anyOf_of_perm h hrun
    exact ⟨outcomes, reordered, hrun, hreordered, hperm⟩

/-! ## What is reported -/

theorem completeValues_perm (h : reordered.Perm outcomes) :
    (completeValues reordered).Perm (completeValues outcomes) := h.filterMap _

theorem leastLength_of_perm (text : Text) (h : reordered.Perm outcomes) :
    leastLength text reordered = leastLength text outcomes := by
  by_cases hnil : outcomes = []
  · rw [hnil] at h
    rw [hnil, List.perm_nil.mp h]
  · have hnil' : reordered ≠ [] := by
      rintro rfl
      exact hnil (List.nil_perm.mp h)
    obtain ⟨shortest, hmem, hleast, hall⟩ := leastLength_of_ne_nil text hnil
    obtain ⟨shortest', hmem', hleast', hall'⟩ := leastLength_of_ne_nil text hnil'
    -- Each of the two shortest rests is among the rests on the other side.
    have hle := hall shortest' (h.mem_iff.mp hmem')
    have hge := hall' shortest (h.mem_iff.mpr hmem)
    rw [hleast, hleast', Nat.le_antisymm hge hle]

theorem agree_of_perm (hrun : parse p text = .ok outcomes)
    (hle : leastLength text outcomes ≤ text.length) (hreordered : parse p' text = .ok reordered)
    (hperm : reordered.Perm outcomes) : (attempt p text).Agree (attempt p' text) := by
  have hvalues := completeValues_perm hperm
  cases hcomplete : completeValues outcomes with
  | nil =>
    have hleast := leastLength_of_perm text hperm
    have hcomplete' := List.perm_nil.mp (hcomplete ▸ hvalues)
    have hle' := hleast.symm ▸ hle
    rw [attempt_of_incomplete hrun hcomplete hle, attempt_of_incomplete hreordered hcomplete' hle',
      reached, reached, hleast]
    exact ⟨rfl, .inr ⟨_, rfl, rfl⟩⟩
  | cons value others =>
    cases hcomplete' : completeValues reordered with
    | nil =>
      rw [hcomplete, hcomplete'] at hvalues
      exact absurd (List.nil_perm.mp hvalues) (List.cons_ne_nil value others)
    | cons value' others' =>
      have hlength := hvalues.length_eq
      rw [hcomplete, hcomplete'] at hlength
      rw [attempt_of_complete hrun hcomplete, attempt_of_complete hreordered hcomplete', hlength]
      exact ⟨rfl, .inl ⟨_, _, rfl, rfl, rfl⟩⟩

/-- The order of the alternatives decides on nothing but the order of the outcomes.  If alternatives
of a grammar are reordered in any of its places, its outcomes are reordered on every text, and the
attempt on it ends in the same way. -/
theorem reordering_permutes (h : Revised Reorders p p') :
    (∀ inp, ∃ outcomes reordered, p inp = .ok outcomes ∧ p' inp = .ok reordered ∧
      reordered.Perm outcomes) ∧
    (∀ text, (attempt p text).Agree (attempt p' text)) := by
  have hrelated : Related (fun _ ↦ List.Perm) p p' :=
    h.related comparison_perm related_of_reorders
  refine ⟨hrelated, fun text ↦ ?_⟩
  obtain ⟨outcomes, reordered, hrun, hreordered, hperm⟩ := hrelated.parse comparison_perm text
  have hle := leastLength_le_of_parse h.leavesSuffixes hrun
  exact agree_of_perm hrun hle hreordered hperm

/-- Words of one and of two letters, repeated, with the longer ones preferred or the shorter ones. -/
theorem reordering_permutes_words :
    Revised Reorders (many (anyOf [string ['a'], string ['a', 'a']]))
      (many (anyOf [string ['a', 'a'], string ['a']])) ∧
    attempt (many (anyOf [string ['a'], string ['a', 'a']])) ['a', 'a'] =
      ⟨.ok (.accepted ⟨[['a'], ['a']], 2⟩), [.started 2, .ambiguous 2]⟩ ∧
    ∃ value, attempt (many (anyOf [string ['a', 'a'], string ['a']])) ['a', 'a'] =
      ⟨.ok (.accepted ⟨value, 2⟩), [.started 2, .ambiguous 2]⟩ := by
  have hwords : Revised Reorders (anyOf [string ['a'], string ['a', 'a']])
      (anyOf [string ['a'], string ['a', 'a']]) :=
    .words [['a'], ['a', 'a']]
  have hrevised : Revised Reorders (many (anyOf [string ['a'], string ['a', 'a']]))
      (many (anyOf [string ['a', 'a'], string ['a']])) :=
    .many (.change hwords (.anyOf (.swap _ _ [])))
  have hchoice : anyOf [string ['a'], string ['a', 'a']] ['a', 'a'] =
      .ok [(['a'], ['a']), (['a', 'a'], [])] := rfl
  have hskip : skipLayout ['a', 'a'] = ['a', 'a'] := by decide +kernel
  have hrun : parse (many (anyOf [string ['a'], string ['a', 'a']])) ['a', 'a'] =
      .ok [([['a'], ['a']], []), ([['a']], ['a']), ([['a', 'a']], []), ([], ['a', 'a'])] := by
    rw [parse_apply, hskip, many_of_ok hchoice]
    exact eq_ok_of_toOption (by decide +kernel)
  have hbefore : attempt (many (anyOf [string ['a'], string ['a', 'a']])) ['a', 'a'] =
      ⟨.ok (.accepted ⟨[['a'], ['a']], 2⟩), [.started 2, .ambiguous 2]⟩ :=
    attempt_of_complete hrun rfl
  obtain ⟨hlog, hresult⟩ := (reordering_permutes hrevised).2 ['a', 'a']
  rw [hbefore] at hlog hresult
  rcases hresult with ⟨accepted, ⟨value, count⟩, haccepted, hagain, hcount⟩ | ⟨_, hfailed, -⟩
  · cases haccepted
    cases hcount
    exact ⟨hrevised, hbefore, value, congrArg₂ Attempt.mk hagain hlog⟩
  · cases hfailed

end Parser

end Backtrack
