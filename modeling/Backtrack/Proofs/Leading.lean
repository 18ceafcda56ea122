import Backtrack.Proofs.Attempt

/-!
# Layout in front of a text

Layout in front of a text is dropped with the layout that the text begins with, so that the parser
itself is run on the same text.  The main statement is that an attempt on a whole text goes as it
would without the layout, with every place counted from the start of the layout: the text is
accepted with the same value and the same number of alternatives, the failure has the same message
and is further behind by the length of the layout, or the same fault is met.

The place of a failure is counted back from the end of the text by what is left over, and that is
the same with the layout and without.  It is never more than the text, which is where it is needed
that a parser leaves suffixes.
-/

namespace Backtrack

variable {α : Type} {front text : Text}

/-! ## Attempts with another text in front -/

/-- The failure with `front` put before its source. -/
def Failure.withFront (front : Text) (failure : Failure) : Failure where
  source := front ++ failure.source
  position := front.length + failure.position
  message := failure.message

/-- An accepted text stays accepted in the same way. -/
def Verdict.withFront (front : Text) : Verdict α → Verdict α
  | .accepted result => .accepted result
  | .failed failure => .failed (failure.withFront front)

def LogRecord.withFront (front : Text) : LogRecord → LogRecord
  | .started length => .started (front.length + length)
  | .ambiguous count => .ambiguous count
  | .failed position message => .failed (front.length + position) message

/-- The attempt with `front` put before its text. -/
def Attempt.withFront (front : Text) (attempt : Attempt α) : Attempt α where
  result := attempt.result.map (Verdict.withFront front)
  log := attempt.log.map (LogRecord.withFront front)

namespace Parser

variable {p : Parser α} {outcomes : Outcomes α}

/-! ## What is left over -/

theorem leastLength_layout_append (h : IsLayout front) (text : Text) (outcomes : Outcomes α) :
    leastLength (front ++ text) outcomes = leastLength text outcomes := by
  rw [leastLength, leastLength, h.skipLayout_append]

/-- The furthest position is further behind by the length of the layout. -/
theorem reached_layout_append (h : IsLayout front) (hle : leastLength text outcomes ≤ text.length) :
    reached (front ++ text) outcomes = front.length + reached text outcomes := by
  rw [reached, reached, leastLength_layout_append h, List.length_append, Nat.add_sub_assoc hle]

theorem parse_layout_append (h : IsLayout front) (p : Parser α) (text : Text) :
    parse p (front ++ text) = parse p text := by
  rw [parse_apply, parse_apply, h.skipLayout_append]

/-! ## Attempts -/

theorem attempt_layout_append_of_complete (h : IsLayout front) (hrun : parse p text = .ok outcomes)
    {value : α} {others : List α} (hcomplete : completeValues outcomes = value :: others) :
    attempt p (front ++ text) = (attempt p text).withFront front := by
  have hrun' := (parse_layout_append h p text).trans hrun
  rw [attempt_of_complete hrun hcomplete, attempt_of_complete hrun' hcomplete, List.length_append]
  by_cases hambiguous : 1 < (value :: others).length
  · rw [if_pos hambiguous]
    rfl
  · rw [if_neg hambiguous]
    rfl

theorem attempt_layout_append_of_incomplete (h : IsLayout front) (hp : LeavesSuffixes p)
    (hrun : parse p text = .ok outcomes) (hcomplete : completeValues outcomes = []) :
    attempt p (front ++ text) = (attempt p text).withFront front := by
  have hrun' := (parse_layout_append h p text).trans hrun
  have hle := leastLength_le_of_parse hp hrun
  have hle' := leastLength_le_of_parse hp hrun'
  rw [attempt_of_incomplete hrun hcomplete hle, attempt_of_incomplete hrun' hcomplete hle',
    reached_layout_append h hle, List.getElem?_append_right (Nat.le_add_right _ _),
    Nat.add_sub_cancel_left]
  simp [Attempt.withFront, Except.map, Verdict.withFront, Failure.withFront, LogRecord.withFront]

/-- Layout in front of a text is invisible, if each of its comments ends with a newline.  An attempt
on the whole text ends in the same way, with its places moved by the length of the layout, and the
complete values are the same. -/
theorem leading_layout_invisible (hp : LeavesSuffixes p) (h : IsLayout front) (text : Text) :
    attempt p (front ++ text) = (attempt p text).withFront front ∧
    parseAll p (front ++ text) = parseAll p text := by
  constructor
  · cases hrun : parse p text with
    | error fault =>
      have hrun' := (parse_layout_append h p text).trans hrun
      rw [attempt_of_error hrun, attempt_of_error hrun', List.length_append]
      rfl
    | ok outcomes =>
      cases hcomplete : completeValues outcomes with
      | nil => exact attempt_layout_append_of_incomplete h hp hrun hcomplete
      | cons value others => exact attempt_layout_append_of_complete h hrun hcomplete
  · rw [parseAll, parseAll, parse_layout_append h p text]

/-- A run of letters with a digit behind it, and a comment and a blank in front. -/
theorem leading_layout_invisible_word :
    LeavesSuffixes word ∧ IsLayout "-- a\n ".toList ∧
    attempt word "ab1".toList = ⟨.ok (.failed ⟨"ab1".toList, 2, "Unexpected character '1'."⟩),
      [.started 3, .failed 2 "Unexpected character '1'."]⟩ ∧
    attempt word "-- a\n ab1".toList =
      ⟨.ok (.failed ⟨"-- a\n ab1".toList, 8, "Unexpected character '1'."⟩),
        [.started 9, .failed 8 "Unexpected character '1'."]⟩ := by
  have hlayout : IsLayout ('-' :: '-' :: (" a".toList ++ Alphabet.newline :: [' '])) :=
    .comment (by decide) (.space (by decide) .nil)
  have hrun : parse word "ab1".toList =
      .ok [("ab".toList, "1".toList), ("a".toList, "b1".toList), ("".toList, "ab1".toList)] := by
    have hskip : skipLayout "ab1".toList = "ab1".toList := by decide +kernel
    rw [parse_apply, hskip]
    rfl
  have hmessage : unexpected (some '1') = "Unexpected character '1'." :=
    unexpected_of_plain (by decide +kernel) (by decide) (by decide)
  have hattempt : attempt word "ab1".toList =
      ⟨.ok (.failed ⟨"ab1".toList, 2, some (unexpected (some '1'))⟩),
        [.started 3, .failed 2 (unexpected (some '1'))]⟩ :=
    attempt_of_incomplete hrun rfl (by decide +kernel)
  rw [hmessage] at hattempt
  have hinvisible := (leading_layout_invisible leavesSuffixes_word hlayout "ab1".toList).1
  rw [hattempt] at hinvisible
  exact ⟨leavesSuffixes_word, hlayout, hattempt, hinvisible⟩

end Parser

end Backtrack
