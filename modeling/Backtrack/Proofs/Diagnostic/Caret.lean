import Backtrack.Proofs.Diagnostic.Rendering

/-!
# What the caret of a position note points at

The excerpt of a note is cut from the line of `splitLines` that has the number of the note, and the
caret stands under the column of the note there.  If no separators but newlines end the lines in front
of the position, that line is the one that the position lies on, as far as it goes without another
separator; and the caret points at the character at the position.  Any other separator in front of the
line shifts the numbers, and then the excerpt shows an earlier line.

The main statement is about the text of the note that an error carries, read as what it says.
-/

namespace Backtrack

/-! ## The excerpt -/

/-- The window is wide enough for every column that the caret can stand under. -/
theorem Excerpt.reach_bounds : 0 < Excerpt.reach ∧ Excerpt.reach ≤ Excerpt.width := by decide

/-- The excerpt of a line whose caret is to stand under the character at `offset`.  It starts late enough
for the caret not to stand behind the reach. -/
def Excerpt.around (shown : Text) (offset : ℕ) : Excerpt :=
  ⟨(shown.drop (offset + 1 - reach)).take width, offset - (offset + 1 - reach)⟩

/-- Near the beginning of a line and further behind, the excerpt is made in the same way. -/
theorem Excerpt.of?_succ (source : Text) (line offset : ℕ) :
    Excerpt.of? source line ((offset + 1 : ℕ) : ℤ) =
      ((splitLines source)[line - 1]?.filter fun shown ↦ offset ≤ shown.length).map
        (around · offset) := by
  unfold of?
  cases (splitLines source)[line - 1]? with
  | none => rfl
  | some shown =>
    by_cases hlength : offset ≤ shown.length
    · have hfilter : (some shown).filter (fun shown ↦ decide (offset ≤ shown.length)) = some shown := by
        simp [hlength]
      rw [hfilter, Option.map_some, around]
      dsimp only
      rw [if_neg (by omega)]
      split
      case isTrue hnear =>
        have hstart : offset + 1 - reach = 0 := by omega
        have hcaret : (((offset + 1 : ℕ) : ℤ) - 1).toNat = offset := by omega
        rw [hstart, hcaret, List.drop_zero, Nat.sub_zero]
      case isFalse hfar =>
        have hstart : (((offset + 1 : ℕ) : ℤ) - reach).toNat = offset + 1 - reach := by omega
        have hcaret : reach - 1 = offset - (offset + 1 - reach) := by omega
        rw [hstart, hcaret]
    · have hfilter : (some shown).filter (fun shown ↦ decide (offset ≤ shown.length)) = none := by
        simpa using hlength
      rw [hfilter]
      exact if_pos (by omega)

theorem Excerpt.around_isInfix (shown : Text) (offset : ℕ) :
    (around shown offset).window <:+: shown :=
  (List.take_prefix _ _).isInfix.trans (List.drop_suffix _ _).isInfix

theorem Excerpt.caret_lt_width (shown : Text) (offset : ℕ) :
    (around shown offset).caret < width := by
  obtain ⟨hpos, hwidth⟩ := reach_bounds
  dsimp only [around]
  omega

theorem Excerpt.getElem?_around (shown : Text) (offset : ℕ) :
    (around shown offset).window[(around shown offset).caret]? = shown[offset]? := by
  have hcaret : offset + 1 - reach + (offset - (offset + 1 - reach)) = offset := by
    have hpos := reach_bounds.1
    omega
  calc
    (around shown offset).window[(around shown offset).caret]? =
        (shown.drop (offset + 1 - reach))[offset - (offset + 1 - reach)]? :=
      List.getElem?_take_of_lt (caret_lt_width shown offset)
    _ = shown[offset]? := by rw [List.getElem?_drop, hcaret]

/-- An excerpt is cut from the numbered line, and above its caret is what the line has there. -/
theorem Excerpt.exists_of_of?_eq_some {source : Text} {line offset : ℕ} {excerpt : Excerpt}
    (h : Excerpt.of? source line ((offset + 1 : ℕ) : ℤ) = some excerpt) :
    ∃ shown, (splitLines source)[line - 1]? = some shown ∧ offset ≤ shown.length ∧
      excerpt = around shown offset := by
  rw [of?_succ, Option.map_eq_some_iff] at h
  obtain ⟨shown, hfilter, rfl⟩ := h
  obtain ⟨hline, hlength⟩ := Option.filter_eq_some_iff.mp hfilter
  exact ⟨shown, hline, of_decide_eq_true hlength, rfl⟩

/-! ## The note -/

section Note

variable {source : Text} {pos : ℕ} {heading : Option String}

theorem PositionNote.lastColumn_take :
    PositionNote.lastColumn (source.take pos) = (lineFront source pos).length + 1 := by
  rw [PositionNote.lastColumn, lineFront, List.rtakeWhile, List.length_reverse]

/-- The note on a position that is not negative. -/
theorem PositionNote.locate_natCast :
    PositionNote.locate source pos heading =
      ⟨heading, (min pos source.length : ℕ), (source.take pos).count '\n' + 1,
        ((lineFront source pos).length + 1 : ℕ),
        Excerpt.of? source ((source.take pos).count '\n' + 1)
          ((lineFront source pos).length + 1 : ℕ)⟩ := by
  have hposition : min (pos : ℤ) source.length = (min pos source.length : ℕ) := by omega
  have hfront : PositionNote.textBefore source ((min pos source.length : ℕ) : ℤ) =
      source.take pos := by
    rw [PositionNote.textBefore, if_neg (by omega), Int.toNat_natCast, ← List.take_eq_take_min]
  unfold PositionNote.locate
  dsimp only
  rw [hposition, hfront, PositionNote.lastColumn_take, PositionNote.lastLineNumber,
    List.length_take, Int.sub_self, Int.add_zero]

/-- The excerpt of a note is cut from the line of its number, around the place behind as many characters
as stand in front of the position. -/
theorem PositionNote.exists_around_of_excerpt_locate {excerpt : Excerpt}
    (h : (PositionNote.locate source pos heading).excerpt = some excerpt) :
    ∃ shown, (splitLines source)[(source.take pos).count '\n']? = some shown ∧
      (lineFront source pos).length ≤ shown.length ∧
      excerpt = .around shown (lineFront source pos).length := by
  rw [PositionNote.locate_natCast] at h
  exact Excerpt.exists_of_of?_eq_some h

/-- It is a part of that line, and its caret stands under what the line has at that place. -/
theorem PositionNote.exists_of_excerpt_locate {excerpt : Excerpt}
    (h : (PositionNote.locate source pos heading).excerpt = some excerpt) :
    ∃ shown, (splitLines source)[(source.take pos).count '\n']? = some shown ∧
      (lineFront source pos).length ≤ shown.length ∧ excerpt.window <:+: shown ∧
      excerpt.window[excerpt.caret]? = shown[(lineFront source pos).length]? := by
  obtain ⟨shown, hline, hlength, rfl⟩ := exists_around_of_excerpt_locate h
  exact ⟨shown, hline, hlength, Excerpt.around_isInfix shown _, Excerpt.getElem?_around shown _⟩

/-! ## The line -/

/-- If the lines in front of a place are counted by newlines, what `splitLines` has at their number is
the first line from there on. -/
theorem getElem?_splitLines (honly : NewlinesOnly (beforeLine source pos)) :
    (splitLines source)[(source.take pos).count '\n']? =
      (splitLines (lineFront source pos ++ source.drop pos)).head? := by
  have hlength := (length_splitLines_eq_iff (endsLine_beforeLine source pos)).mpr honly
  rw [← count_beforeLine, ← hlength]
  nth_rewrite 1 [← beforeLine_append source pos]
  rw [splitLines_append (endsLine_beforeLine source pos), List.getElem?_append_right (Nat.le_refl _),
    Nat.sub_self, List.head?_eq_getElem?]

/-- Then it has the line of the place there, up to its first separator. -/
theorem splitLines_shows_line {shown : Text} (honly : NewlinesOnly (beforeLine source pos))
    (hshown : (splitLines source)[(source.take pos).count '\n']? = some shown) :
    shown = (lineFront source pos ++ source.drop pos).takeWhile inLine := by
  rw [getElem?_splitLines honly, head?_splitLines ?_] at hshown
  · exact (Option.some.inj hshown).symm
  · intro hnil
    rw [hnil] at hshown
    contradiction

/-- Otherwise it has an earlier line there. -/
theorem splitLines_shows_earlier {shown : Text} (honly : ¬ NewlinesOnly (beforeLine source pos))
    (hshown : (splitLines source)[(source.take pos).count '\n']? = some shown) :
    shown ∈ splitLines (beforeLine source pos) := by
  have hlength := mt (length_splitLines_eq_iff (endsLine_beforeLine source pos)).mp honly
  have hle := count_newline_le (beforeLine source pos)
  rw [← count_beforeLine] at hshown
  nth_rewrite 1 [← beforeLine_append source pos] at hshown
  rw [splitLines_append (endsLine_beforeLine source pos),
    List.getElem?_append_left (by omega)] at hshown
  exact List.mem_of_getElem? hshown

end Note

/-- The excerpt that a note shows is cut from the line that the position lies on, which has the number
that the note says, and the caret points at the character at the position, unless that is a separator;
then the caret stands behind the excerpt.  This holds if all separators in front of the line are
newlines, with or without carriage returns; otherwise the excerpt is cut from an earlier line. -/
theorem caret_under_position {source : Text} {pos : ℕ} {message : Option String} {text : String}
    {note : PositionNote} {excerpt : Excerpt}
    (htext : text ∈ (ParseError.make source pos message).notes.map PositionNote.render)
    (hreads : PositionNote.Says text note) (hshown : note.excerpt = some excerpt) :
    (source.splitOn '\n')[note.line - 1]? = some (lineAround source pos) ∧
      if NewlinesOnly (beforeLine source pos) then
        excerpt.window <:+: lineAround source pos ∧
          excerpt.window[excerpt.caret]? = source[pos]?.filter inLine
      else ∃ shown ∈ splitLines (beforeLine source pos), excerpt.window <:+: shown := by
  obtain rfl : text = (PositionNote.locate source pos none).render := List.mem_singleton.mp htext
  obtain rfl : note = PositionNote.locate source pos none :=
    hreads.unique (PositionNote.says_locate source pos none)
  constructor
  · rw [PositionNote.locate_natCast]
    exact getElem?_splitOn_lineAround source pos
  obtain ⟨shown, hline, hlength, hwindow, hcaret⟩ := PositionNote.exists_of_excerpt_locate hshown
  split
  case isTrue honly =>
    obtain rfl := splitLines_shows_line honly hline
    rw [takeWhile_append_of_length_le hlength] at hwindow hcaret
    have hprefix : lineFront source pos ++ (source.drop pos).takeWhile inLine <+:
        lineAround source pos := (List.prefix_append_right_inj _).mpr (isPrefix_takeWhile_inLine _)
    refine ⟨hwindow.trans hprefix.isInfix, ?_⟩
    rw [hcaret, List.getElem?_append_right (Nat.le_refl _), Nat.sub_self, ← List.head?_eq_getElem?,
      List.head?_takeWhile, List.head?_drop]
  case isFalse honly => exact ⟨shown, splitLines_shows_earlier honly hline, hwindow⟩

/-- The factor after the second operator of a product on a second line. -/
theorem caret_under_position_factor :
    "At position 9 (line 2, column 5)\n2 * x\n    ^" ∈
      (ParseError.make "1 +\r\n2 * x".toList 9 none).notes.map PositionNote.render ∧
    "2 * x".toList <:+: lineAround "1 +\r\n2 * x".toList 9 ∧ "2 * x".toList[4]? = some 'x' := by
  have htext : "At position 9 (line 2, column 5)\n2 * x\n    ^" ∈
      (ParseError.make "1 +\r\n2 * x".toList (9 : ℕ) none).notes.map PositionNote.render := by
    decide +kernel
  have hreads : PositionNote.Says "At position 9 (line 2, column 5)\n2 * x\n    ^"
      ⟨none, 9, 2, 5, some ⟨"2 * x".toList, 4⟩⟩ := by
    unfold PositionNote.Says
    decide +kernel
  have hcaret := (caret_under_position htext hreads rfl).2
  rw [if_pos (by decide)] at hcaret
  exact ⟨htext, hcaret⟩

/-- A vertical tab in front of the line makes the note show an earlier line, with the caret under
another character. -/
theorem caret_not_under_position :
    (ParseError.make "a\x0bb\nc".toList 4 none).notes = [⟨none, 4, 2, 1, some ⟨['b'], 0⟩⟩] ∧
      (ParseError.make "a\x0bb\nc".toList 4 none).notes.map PositionNote.render =
        ["At position 4 (line 2, column 1)\nb\n^"] ∧
      lineAround "a\x0bb\nc".toList 4 = ['c'] ∧ "a\x0bb\nc".toList[4]? = some 'c' := by
  decide +kernel

end Backtrack
