import Backtrack.Proofs.Quoted
import Backtrack.Proofs.Verdict

/-!
# The report on an attempt

`attempt`, `run` and `parseAll` are three views of the outcomes of one parse.  The main statement is
that they agree on every text on which the parse is not abandoned, and that the report of a failure
is exact: it points at the furthest position that an outcome has reached, and names the character
there.

Where every outcome leaves something, the text is longer than the furthest position; this is where
it is needed that a parser leaves suffixes.
-/

namespace Backtrack

variable {α : Type}

/-! ## The character at a position -/

/-- What is left of a text starts with the character at the place where it starts. -/
theorem getElem?_of_suffix {rest text : Text} (h : rest <:+ text) :
    text[text.length - rest.length]? = rest.head? := by
  obtain ⟨front, rfl⟩ := h
  rw [List.length_append, Nat.add_sub_cancel, List.getElem?_append_right (Nat.le_refl _),
    Nat.sub_self, List.head?_eq_getElem?]

theorem unexpected_some (c : Char) :
    unexpected (some c) = "Unexpected character " ++ String.ofList (quoted [c]) ++ "." := rfl

theorem unexpected_of_plain {c : Char} (hprintable : isUnprintable c = false) (hquote : c ≠ '\'')
    (hbackslash : c ≠ '\\') :
    unexpected (some c) = "Unexpected character " ++ String.ofList ['\'', c, '\''] ++ "." := by
  rw [unexpected_some, ← (Shows.plain hprintable hquote hbackslash).eq_quoted]

/-- The message on a character never reads as the one on the end of the text. -/
theorem unexpected_eq_end_iff (next : Option Char) :
    unexpected next = "Unexpected end of input." ↔ next = none := by
  cases next with
  | none => exact ⟨fun _ ↦ rfl, fun _ ↦ rfl⟩
  | some c =>
    have hprefix : "Unexpected character ".toList <+: (unexpected (some c)).toList := by
      rw [unexpected_some, String.toList_append, String.toList_append, List.append_assoc]
      exact List.prefix_append _ _
    constructor
    · intro h
      rw [h] at hprefix
      exact absurd hprefix (by decide)
    · intro h
      contradiction

/-- The message names the character, so that no two characters have the same one. -/
theorem unexpected_eq_iff {next : Option Char} {c : Char} :
    next = some c ↔ ∃ shown, Shows c shown ∧
      unexpected next = "Unexpected character " ++ String.ofList shown ++ "." := by
  constructor
  · rintro rfl
    exact ⟨quoted [c], shows_quoted c, unexpected_some c⟩
  · rintro ⟨shown, hshows, hmessage⟩
    cases next with
    | none =>
      rw [hshows.eq_quoted, ← unexpected_some] at hmessage
      exact absurd hmessage.symm (mt (unexpected_eq_end_iff _).mp (Option.some_ne_none c))
    | some d =>
      rw [unexpected_some, String.append_left_inj, String.append_right_inj, String.ofList_inj] at hmessage
      exact congrArg some ((shows_quoted d).char_unique (hmessage ▸ hshows))

/-! ## The furthest position -/

/-- The furthest position that an outcome has reached; without outcomes, the place behind the
leading layout. -/
def Furthest (text : Text) (outcomes : Outcomes α) (position : Nat) : Prop :=
  (outcomes = [] → position + (skipLayout text).length = text.length) ∧
  (outcomes ≠ [] → (∃ outcome ∈ outcomes, position + outcome.2.length = text.length) ∧
    ∀ outcome ∈ outcomes, text.length ≤ position + outcome.2.length)

/-- What the report of a failure says about the text. -/
structure Report (text : Text) (outcomes : Outcomes α) (position : Nat) (message : String) :
    Prop where
  position_le : position ≤ text.length
  furthest : Furthest text outcomes position
  /-- The message shows the character at the position, and no other one. -/
  names_iff : ∀ c, text[position]? = some c ↔ ∃ shown, Shows c shown ∧
    message = "Unexpected character " ++ String.ofList shown ++ "."
  /-- That character is the first one of a shortest rest. -/
  shortest : outcomes ≠ [] → ∃ value c rest, (value, c :: rest) ∈ outcomes ∧
    (∀ outcome ∈ outcomes, (c :: rest).length ≤ outcome.2.length) ∧ text[position]? = some c
  end_iff : message = "Unexpected end of input." ↔ position = text.length
  length_iff : position = text.length ↔ outcomes = [] ∧ skipLayout text = []

/-- The report fixes the message. -/
theorem Report.message_eq {text : Text} {outcomes : Outcomes α} {position : Nat} {message : String}
    (h : Report text outcomes position message) : message = unexpected text[position]? := by
  cases hnext : text[position]? with
  | none =>
    have hend := List.getElem?_eq_none_iff.mp hnext
    exact h.end_iff.mpr (Nat.le_antisymm h.position_le hend)
  | some c =>
    obtain ⟨shown, hshows, rfl⟩ := (h.names_iff c).mp hnext
    rw [hshows.eq_quoted, unexpected_some]

namespace Parser

variable {p : Parser α} {text : Text} {outcomes : Outcomes α}

theorem message_eq_end_iff {position : Nat} (hle : position ≤ text.length) :
    unexpected text[position]? = "Unexpected end of input." ↔ position = text.length := by
  rw [unexpected_eq_end_iff, List.getElem?_eq_none_iff]
  omega

/-- Without outcomes, the report is about the place behind the leading layout. -/
theorem report_nil (text : Text) :
    Report text ([] : Outcomes α) (text.length - (skipLayout text).length)
      (unexpected text[text.length - (skipLayout text).length]?) := by
  have hle := length_skipLayout_le text
  have hbound : text.length - (skipLayout text).length ≤ text.length := Nat.sub_le _ _
  constructor
  case position_le => exact hbound
  case furthest =>
    exact ⟨fun _ ↦ Nat.sub_add_cancel hle, fun hne ↦ absurd rfl hne⟩
  case names_iff => exact fun _ ↦ unexpected_eq_iff
  case shortest => exact fun hne ↦ absurd rfl hne
  case end_iff => exact message_eq_end_iff hbound
  case length_iff =>
    constructor
    · intro hend
      have hzero : (skipLayout text).length = 0 := by omega
      exact ⟨rfl, List.length_eq_zero_iff.mp hzero⟩
    · rintro ⟨-, hskip⟩
      rw [hskip, List.length_nil, Nat.sub_zero]

/-- With outcomes of which none is complete, the report is about the first character of a rest that
is as short as any. -/
theorem report_of_incomplete (hsuffix : ∀ outcome ∈ outcomes, outcome.2 <:+ text)
    (hincomplete : ∀ outcome ∈ outcomes, outcome.2 ≠ []) {value : α} {shortest : Text}
    (hmem : (value, shortest) ∈ outcomes)
    (hleast : ∀ outcome ∈ outcomes, shortest.length ≤ outcome.2.length) :
    Report text outcomes (text.length - shortest.length)
      (unexpected text[text.length - shortest.length]?) := by
  have hrest : shortest <:+ text := hsuffix _ hmem
  have hle := hrest.length_le
  have hpos : 0 < shortest.length := List.length_pos_iff.mpr (hincomplete _ hmem)
  have hbound : text.length - shortest.length ≤ text.length := Nat.sub_le _ _
  have hne : outcomes ≠ [] := List.ne_nil_of_mem hmem
  constructor
  case position_le => exact hbound
  case furthest =>
    refine ⟨fun hnil ↦ absurd hnil hne, fun _ ↦ ⟨⟨_, hmem, Nat.sub_add_cancel hle⟩, ?_⟩⟩
    intro outcome houtcome
    have hother := hleast outcome houtcome
    omega
  case names_iff => exact fun _ ↦ unexpected_eq_iff
  case shortest =>
    intro _
    cases shortest with
    | nil => contradiction
    | cons c rest => exact ⟨value, c, rest, hmem, hleast, getElem?_of_suffix hrest⟩
  case end_iff => exact message_eq_end_iff hbound
  case length_iff =>
    constructor
    · intro hend
      omega
    · rintro ⟨hnil, -⟩
      exact absurd hnil hne

theorem report_reached (hp : LeavesSuffixes p) (hrun : parse p text = .ok outcomes)
    (hcomplete : completeValues outcomes = []) :
    Report text outcomes (reached text outcomes) (unexpected text[reached text outcomes]?) := by
  have hsuffix := hp.parse.suffix_of_mem hrun
  have hincomplete := rest_ne_nil_of_incomplete hcomplete
  unfold reached
  by_cases hne : outcomes = []
  · rw [hne, leastLength_nil]
    exact report_nil text
  · obtain ⟨⟨value, shortest⟩, hmem, hleast, hall⟩ := leastLength_of_ne_nil text hne
    rw [hleast]
    exact report_of_incomplete hsuffix hincomplete hmem hall

/-! ## The three drivers -/

theorem parseAll_of_ok (hrun : parse p text = .ok outcomes) :
    parseAll p text = .ok (completeValues outcomes) := by
  rw [parseAll, hrun, ok_bind, pure_eq_ok]

/-- The drivers agree: a text is accepted with the first of its complete values and their number,
and on a text without complete values the same failure is reported, logged and raised.  Its place is
the furthest position that an outcome has reached. -/
theorem drivers_agree (hp : LeavesSuffixes p) (hrun : parse p text = .ok outcomes) :
    ∃ values, parseAll p text = .ok values ∧
      (∀ value others, values = value :: others →
        attempt p text = ⟨.ok (.accepted ⟨value, values.length⟩),
          .started text.length :: if 1 < values.length then [.ambiguous values.length] else []⟩ ∧
        run p text = .ok value) ∧
      (values = [] → ∃ (position : Nat) (message : String),
        attempt p text = ⟨.ok (.failed ⟨text, position, some message⟩),
          [.started text.length, .failed position message]⟩ ∧
        run p text =
          .error (.parse ⟨text, position, some message, [.locate text position none]⟩) ∧
        Report text outcomes position message) := by
  refine ⟨completeValues outcomes, parseAll_of_ok hrun, ?_, ?_⟩
  · intro value others hcomplete
    have hattempt := attempt_of_complete hrun hcomplete
    rw [hcomplete]
    exact ⟨hattempt, run_of_accepted hattempt⟩
  · intro hcomplete
    have hattempt := attempt_of_incomplete hrun hcomplete (leastLength_le_of_parse hp hrun)
    exact ⟨_, _, hattempt, run_of_failed hattempt, report_reached hp hrun hcomplete⟩

/-- A run of letters with a digit behind it, which is read in three ways and in none to its end. -/
theorem drivers_agree_word :
    LeavesSuffixes word ∧
    parse word "  ab1".toList =
      .ok [("ab".toList, "1".toList), ("a".toList, "b1".toList), ("".toList, "ab1".toList)] ∧
    parseAll word "  ab1".toList = .ok [] ∧
    run word "  ab1".toList = .error (.parse ⟨"  ab1".toList, 4, "Unexpected character '1'.",
      [.locate "  ab1".toList 4 none]⟩) := by
  have hskip : skipLayout "  ab1".toList = "ab1".toList := by decide +kernel
  have hrun : parse word "  ab1".toList =
      .ok [("ab".toList, "1".toList), ("a".toList, "b1".toList), ("".toList, "ab1".toList)] := by
    rw [parse_apply, hskip]
    rfl
  obtain ⟨values, hvalues, -, hfailed⟩ := drivers_agree leavesSuffixes_word hrun
  have hnone : parseAll word "  ab1".toList = .ok [] := parseAll_of_ok hrun
  rw [hnone, Except.ok.injEq] at hvalues
  obtain ⟨position, message, -, hraised, hreport⟩ := hfailed hvalues.symm
  obtain ⟨⟨outcome, hmem, hreached⟩, hfurthest⟩ := hreport.furthest.2 (List.cons_ne_nil _ _)
  have hposition : position = 4 := by
    have hlow : 5 ≤ position + 1 := hfurthest _ List.mem_cons_self
    have hhigh : 1 ≤ outcome.2.length := by
      simp only [List.mem_cons, List.not_mem_nil, or_false] at hmem
      rcases hmem with rfl | rfl | rfl <;> decide
    have hlength : position + outcome.2.length = 5 := hreached
    omega
  have hmessage : message = "Unexpected character '1'." := by
    rw [hreport.message_eq, hposition]
    exact unexpected_of_plain (by decide +kernel) (by decide) (by decide)
  rw [hposition, hmessage] at hraised
  exact ⟨leavesSuffixes_word, hrun, hnone, hraised⟩

end Parser

end Backtrack
