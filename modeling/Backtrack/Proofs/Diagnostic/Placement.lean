import Backtrack.Proofs.Diagnostic.Caret
import Mathlib.Algebra.GroupWithZero.Nat
import Mathlib.Data.Prod.Lex

/-!
# Where a position note places a position

Line and column of a note count up to the position: the lines in front of it, each with its newline,
and the characters in front of it on its own line.  The main statement says that the rendered numbers do
so for every source and position, so that they grow with the position, that a position past the end has
the note of the end, and when an excerpt is shown and how wide it is.

What stands in front of a line has the length of the lines before it, each with one more character for
its newline.  So that length depends on the number of the line only.
-/

namespace Backtrack

variable {source : Text} {pos : ℕ} {heading : Option String}

/-! ## The lines in front -/

/-- How much of a text the first `count` lines take up, each with its newline. -/
def lengthOfLines (source : Text) (count : ℕ) : ℕ :=
  (((source.splitOn '\n').take count).map fun line ↦ line.length + 1).sum

/-- Text that ends a line is as long as the lines that it makes up. -/
theorem lengthOfLines_append {front : Text} (h : EndsLine front) (text : Text) :
    lengthOfLines (front ++ text) (front.count '\n') = front.length := by
  unfold lengthOfLines
  induction front with
  | nil => simp
  | cons c rest ih =>
    have hrest := ih h.of_cons
    rw [List.cons_append, List.splitOn_cons_eq_if_modifyHead]
    by_cases hc : c = '\n'
    · rw [if_pos (beq_iff_eq.mpr hc), hc, List.count_cons_self, List.take_succ_cons, List.map_cons,
        List.sum_cons, hrest, List.length_nil, Nat.zero_add, List.length_cons, Nat.add_comm]
    · have hpos := h.count_pos hc
      rw [if_neg (mt beq_iff_eq.mp hc), List.count_cons_of_ne hc]
      -- The character goes on to the first of the lines, and there is one since a newline follows.
      cases hlines : (rest ++ text).splitOn '\n' with
      | nil => exact absurd hlines (List.splitOn_ne_nil _ _)
      | cons line lines =>
        rw [hlines] at hrest
        obtain ⟨n, hn⟩ := Nat.exists_eq_add_one_of_ne_zero (Nat.pos_iff_ne_zero.mp hpos)
        rw [hn, List.take_succ_cons, List.map_cons, List.sum_cons] at hrest
        rw [hn, List.modifyHead_cons, List.take_succ_cons, List.map_cons, List.sum_cons,
          List.length_cons, List.length_cons, ← hrest]
        omega

theorem lengthOfLines_count (source : Text) (pos : ℕ) :
    lengthOfLines source ((source.take pos).count '\n') = (beforeLine source pos).length := by
  have hlines := lengthOfLines_append (endsLine_beforeLine source pos)
    (lineFront source pos ++ source.drop pos)
  rwa [beforeLine_append, count_beforeLine] at hlines

theorem length_take_eq_add (source : Text) (pos : ℕ) :
    min pos source.length =
      lengthOfLines source ((source.take pos).count '\n') + (lineFront source pos).length := by
  rw [lengthOfLines_count, ← List.length_append, beforeLine_append_lineFront, List.length_take]

/-! ## Line and column -/

namespace PositionNote

/-- The note gives line and column of the position, both counted from one; a position past the end
counts as the end. -/
structure Places (source : Text) (pos : ℕ) (note : PositionNote) : Prop where
  position_eq : note.position = (min pos source.length : ℕ)
  line_pos : 1 ≤ note.line
  line_le : note.line ≤ (source.splitOn '\n').length
  column_pos : 1 ≤ note.column
  column_le : ∃ line, (source.splitOn '\n')[note.line - 1]? = some line ∧
    note.column ≤ line.length + 1
  position_eq_add : note.position = lengthOfLines source (note.line - 1) + (note.column - 1)

theorem places_locate (source : Text) (pos : ℕ) (heading : Option String) :
    Places source pos (locate source pos heading) := by
  have hline := getElem?_splitOn_lineAround source pos
  have hbound := (List.getElem?_eq_some_iff.mp hline).1
  rw [locate_natCast]
  constructor
  case position_eq => rfl
  case line_pos => exact Nat.le_add_left 1 _
  case line_le => exact hbound
  case column_pos => exact Int.ofNat_le.mpr (Nat.le_add_left 1 _)
  case column_le =>
    refine ⟨lineAround source pos, hline, ?_⟩
    rw [lineAround, List.length_append]
    push_cast
    omega
  case position_eq_add =>
    rw [length_take_eq_add source pos, Nat.add_sub_cancel]
    push_cast
    omega

/-- A later position has a larger line, or the same line and a larger column. -/
theorem Places.lt {later : ℕ} {note laterNote : PositionNote} (h : Places source pos note)
    (hlater : Places source later laterNote) (hlt : pos < later) (hle : later ≤ source.length)
    (hlines : note.line ≤ laterNote.line) :
    toLex (note.line, note.column) < toLex (laterNote.line, laterNote.column) := by
  rw [Prod.Lex.toLex_lt_toLex]
  rcases Nat.lt_or_eq_of_le hlines with hline | hline
  · exact .inl hline
  · refine .inr ⟨hline, ?_⟩
    have hposition := h.position_eq
    have hposition' := hlater.position_eq
    rw [h.position_eq_add, hline] at hposition
    rw [hlater.position_eq_add] at hposition'
    have hmin : min pos source.length < min later source.length := by omega
    dsimp only
    omega

theorem line_le_of_le {later : ℕ} (h : pos ≤ later) :
    (locate source pos heading).line ≤ (locate source later heading).line := by
  rw [locate_natCast, locate_natCast]
  exact Nat.succ_le_succ ((List.take_sublist_take_left h).count_le '\n')

theorem locate_of_length_le (h : source.length ≤ pos) :
    locate source pos heading = locate source source.length heading := by
  have hmin : min (pos : ℤ) source.length = min (source.length : ℤ) source.length := by omega
  unfold locate
  rw [hmin]

end PositionNote

/-! ## The excerpt -/

theorem Excerpt.length_window_le (shown : Text) (offset : ℕ) :
    (around shown offset).window.length ≤ width := List.length_take_le _ _

/-- The caret is under the window or right behind it. -/
theorem Excerpt.caret_le_length {shown : Text} {offset : ℕ} (h : offset ≤ shown.length) :
    (around shown offset).caret ≤ (around shown offset).window.length := by
  have hcaret := caret_lt_width shown offset
  dsimp only [around] at hcaret ⊢
  rw [List.length_take, List.length_drop]
  omega

/-- Nothing stands behind the last newline in front of the position just if the position is the end of
a source that ends its last line. -/
theorem lineFront_append_drop_eq_nil_iff :
    lineFront source pos ++ source.drop pos = [] ↔ source.length ≤ pos ∧ EndsLine source := by
  rw [List.append_eq_nil_iff, List.drop_eq_nil_iff, and_comm]
  refine and_congr_right fun hpos ↦ ?_
  have htake : source.take pos = source := List.take_of_length_le hpos
  have happend := beforeLine_append_lineFront source pos
  rw [htake] at happend
  constructor
  · intro hnil
    rw [hnil, List.append_nil] at happend
    exact happend ▸ endsLine_beforeLine source pos
  · intro hends
    rw [lineFront, htake, List.rtakeWhile_eq_nil_iff]
    intro hne
    simp [hends _ (List.getLast?_eq_some_getLast hne)]

/-- The line of a position reaches up to the position if there are no separators but newlines. -/
theorem length_lineFront_le (h : ∀ c ∈ source, c ∈ lineBreaks → c = '\n') :
    (lineFront source pos).length ≤
      ((lineFront source pos ++ source.drop pos).takeWhile inLine).length := by
  have hfront : ∀ c ∈ lineFront source pos, inLine c := by
    intro c hc
    have hsource : c ∈ source := by
      rw [← beforeLine_append source pos]
      simp [hc]
    apply inLine_eq_true
    intro hbreak
    exact newline_notMem_lineFront source pos (h c hsource hbreak ▸ hc)
  rw [List.takeWhile_append_of_pos hfront, List.length_append]
  exact Nat.le_add_right _ _

theorem PositionNote.excerpt_eq_none_iff (h : ∀ c ∈ source, c ∈ lineBreaks → c = '\n') :
    (locate source pos heading).excerpt = none ↔ source.length ≤ pos ∧ EndsLine source := by
  have honly : NewlinesOnly (beforeLine source pos) := by
    apply newlinesOnly_of_forall
    intro c hc
    apply h
    rw [← beforeLine_append source pos]
    exact List.mem_append_left _ hc
  rw [← lineFront_append_drop_eq_nil_iff, locate_natCast]
  dsimp only
  rw [Excerpt.of?_succ, Nat.add_sub_cancel, getElem?_splitLines honly]
  by_cases hnil : lineFront source pos ++ source.drop pos = []
  · rw [hnil]
    simp [splitLines]
  · rw [head?_splitLines hnil]
    simp [hnil, length_lineFront_le h]

/-- Notes are consistent, for every source and position: this is about what their texts say, one for
each note that is added to an error.  Line and column are within the source and count up to the
position, a later position within the source has a later place, and one past the end has the note of
the end.  An excerpt is no wider than forty characters with the caret under it or right behind, and if
lines are separated by newlines only, one is shown unless the position is the end of a source that is
empty or ends with a newline. -/
theorem notes_consistent (source : Text) (pos : ℕ) (heading : Option String) :
    (∀ error : ParseError, error.source = source →
      (error.annotate pos heading).notes.map PositionNote.render =
        error.notes.map PositionNote.render ++ [(PositionNote.locate source pos heading).render]) ∧
    (∃ note, PositionNote.Says (PositionNote.locate source pos heading).render note) ∧
    (∀ note, PositionNote.Says (PositionNote.locate source pos heading).render note →
      note.heading = heading ∧ PositionNote.Places source pos note ∧
      (∀ later : ℕ, pos < later → later ≤ source.length → ∀ laterNote,
        PositionNote.Says (PositionNote.locate source later heading).render laterNote →
        toLex (note.line, note.column) < toLex (laterNote.line, laterNote.column)) ∧
      (∀ excerpt, note.excerpt = some excerpt →
        excerpt.window.length ≤ 40 ∧ excerpt.caret ≤ excerpt.window.length) ∧
      ((∀ c ∈ source, c ∈ lineBreaks → c = '\n') →
        (note.excerpt = none ↔ source.length ≤ pos ∧ EndsLine source))) ∧
    (source.length ≤ pos → (PositionNote.locate source pos heading).render =
      (PositionNote.locate source source.length heading).render) := by
  have hplaces := PositionNote.places_locate source
  have hreads := PositionNote.says_locate source
  refine ⟨?_, ⟨_, hreads pos heading⟩, ?_, ?_⟩
  · rintro error rfl
    rw [ParseError.annotate, List.map_append, List.map_singleton]
  · intro note hnote
    obtain rfl := hnote.unique (hreads pos heading)
    refine ⟨rfl, hplaces pos heading, ?_, ?_, PositionNote.excerpt_eq_none_iff⟩
    · intro later hlt hle laterNote hlater
      obtain rfl := hlater.unique (hreads later heading)
      exact (hplaces pos heading).lt (hplaces later heading) hlt hle
        (PositionNote.line_le_of_le (Nat.le_of_lt hlt))
    · intro excerpt hexcerpt
      obtain ⟨shown, -, hlength, rfl⟩ := PositionNote.exists_around_of_excerpt_locate hexcerpt
      exact ⟨Excerpt.length_window_le shown _, Excerpt.caret_le_length hlength⟩
  · intro hpast
    rw [PositionNote.locate_of_length_le hpast]

/-- On two lines, the second one ended: the beginning of the second line against the end of the source,
where no excerpt is shown, and a position past the end. -/
theorem notes_consistent_two_lines :
    (PositionNote.locate "ab\nc\n".toList 3 none).render =
      "At position 3 (line 2, column 1)\nc\n^" ∧
    (PositionNote.locate "ab\nc\n".toList 5 none).render = "At position 5 (line 3, column 1)" ∧
    (PositionNote.locate "ab\nc\n".toList 9 none).render = "At position 5 (line 3, column 1)" ∧
    toLex (2, (1 : ℤ)) < toLex (3, 1) ∧
    (['c'].length ≤ 40 ∧ 0 ≤ ['c'].length) ∧
    EndsLine "ab\nc\n".toList := by
  have hsecond : (PositionNote.locate "ab\nc\n".toList (3 : ℕ) none).render =
      "At position 3 (line 2, column 1)\nc\n^" := by decide +kernel
  have hend : (PositionNote.locate "ab\nc\n".toList (5 : ℕ) none).render =
      "At position 5 (line 3, column 1)" := by decide +kernel
  have hreadsSecond : PositionNote.Says (PositionNote.locate "ab\nc\n".toList (3 : ℕ) none).render
      ⟨none, 3, 2, 1, some ⟨['c'], 0⟩⟩ := by
    rw [hsecond, PositionNote.Says]
    decide +kernel
  have hreadsEnd : PositionNote.Says (PositionNote.locate "ab\nc\n".toList (5 : ℕ) none).render
      ⟨none, 5, 3, 1, none⟩ := by
    rw [hend, PositionNote.Says]
    decide +kernel
  have hbreaks : ∀ c ∈ "ab\nc\n".toList, c ∈ lineBreaks → c = '\n' := by simp [lineBreaks]
  obtain ⟨-, -, hread, -⟩ := notes_consistent "ab\nc\n".toList 3 none
  obtain ⟨-, -, hreadEnd, -⟩ := notes_consistent "ab\nc\n".toList 5 none
  obtain ⟨-, -, -, hpast⟩ := notes_consistent "ab\nc\n".toList 9 none
  obtain ⟨-, -, hlater, hwidth, -⟩ := hread _ hreadsSecond
  obtain ⟨-, -, -, -, hnone⟩ := hreadEnd _ hreadsEnd
  exact ⟨hsecond, hend, (hpast (by decide)).trans hend, hlater 5 (by decide) (by decide) _ hreadsEnd,
    hwidth _ rfl, ((hnone hbreaks).mp rfl).2⟩

end Backtrack
