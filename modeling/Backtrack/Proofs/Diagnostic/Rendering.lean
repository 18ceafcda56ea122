import Backtrack.Proofs.Decimal
import Backtrack.Proofs.Diagnostic.Lines

/-!
# What a rendered note says

A note is rendered as a few lines.  `Says` is how they are read: the lines of the heading, a line with
the place in numbers, and, if there is an excerpt, its window and a line with the caret under it.

The main statements are that the rendered note on a position says what the note has, and that no text
says two notes.  So what is stated of the notes that a text says is stated of what the text shows.
-/

namespace Backtrack

/-! ## Lines -/

theorem splitOn_intercalate_eq_flatMap {lines : List Text} (h : lines ≠ []) :
    (['\n'].intercalate lines).splitOn '\n' = lines.flatMap (·.splitOn '\n') := by
  induction lines with
  | nil => contradiction
  | cons line lines ih =>
    rw [List.flatMap_cons]
    by_cases hlast : lines = []
    · rw [hlast, List.intercalate_singleton, List.flatMap_nil, List.append_nil]
    · rw [List.intercalate_cons_of_ne_nil hlast, List.append_assoc, List.singleton_append,
        List.splitOn_append_cons_self, ih hlast]

theorem newline_notMem_of_mem_splitLines {text line : Text} (h : line ∈ splitLines text) :
    '\n' ∉ line := by
  induction text using separator_induction generalizing line with
  | nil => contradiction
  | pair rest ih =>
    rw [splitLines_pair, List.mem_cons] at h
    rcases h with rfl | h
    · exact List.not_mem_nil
    · exact ih h
  | separator c rest hbreak hpair ih =>
    rw [splitLines_cons_of_mem hbreak hpair, List.mem_cons] at h
    rcases h with rfl | h
    · exact List.not_mem_nil
    · exact ih h
  | plain c rest hplain ih =>
    rw [splitLines_cons_of_notMem hplain, List.mem_cons] at h
    rcases h with rfl | h
    · have hne := (ne_newline hplain).symm
      cases hlines : splitLines rest with
      | nil => simpa using hne
      | cons first lines =>
        have hfirst := ih (hlines ▸ List.mem_cons_self)
        simpa using And.intro hne hfirst
    · exact ih (List.mem_of_mem_tail h)

namespace PositionNote

/-- The line that says in numbers where a position lies. -/
def placeLine (position : ℤ) (line : ℕ) (column : ℤ) : Text :=
  "At position ".toList ++ (decimalText position ++ (" (line ".toList ++ (decimalText line ++
    (", column ".toList ++ (decimalText column ++ ")".toList)))))

/-- The lines of a heading. -/
def headingLines : Option String → List Text
  | none => []
  | some heading => heading.toList.splitOn '\n'

/-- The line with a caret behind so many spaces. -/
def caretLine (caret : ℕ) : Text := List.replicate caret ' ' ++ ['^']

/-- The window of an excerpt, and its caret on the line below. -/
def excerptLines : Option Excerpt → List Text
  | none => []
  | some ⟨window, caret⟩ => [window, caretLine caret]

/-- The text consists of the lines of the note. -/
def Says (text : String) (note : PositionNote) : Prop :=
  text.toList.splitOn '\n' =
    headingLines note.heading ++
      placeLine note.position note.line note.column :: excerptLines note.excerpt

/-! ## One text, one note -/

theorem placeLine_inj {position position' column column' : ℤ} {line line' : ℕ}
    (h : placeLine position line column = placeLine position' line' column') :
    position = position' ∧ line = line' ∧ column = column' := by
  -- Behind each number are words that do not start with a digit.
  have hline (rest : Text) : ¬ startsWithDigit (" (line ".toList ++ rest) := Bool.false_ne_true
  have hcolumn (rest : Text) : ¬ startsWithDigit (", column ".toList ++ rest) := Bool.false_ne_true
  have hclosing : ¬ startsWithDigit ")".toList := Bool.false_ne_true
  obtain ⟨hposition, hrest⟩ :=
    Parser.decimalText_append_inj (hline _) (hline _) (List.append_cancel_left h)
  obtain ⟨hcount, hlast⟩ :=
    Parser.decimalText_append_inj (hcolumn _) (hcolumn _) (List.append_cancel_left hrest)
  obtain ⟨hplace, -⟩ :=
    Parser.decimalText_append_inj hclosing hclosing (List.append_cancel_left hlast)
  exact ⟨hposition, Int.ofNat_inj.mp hcount, hplace⟩

theorem headingLines_inj {heading heading' : Option String}
    (h : headingLines heading = headingLines heading') : heading = heading' := by
  cases heading with
  | none =>
    cases heading' with
    | none => rfl
    | some heading' => exact absurd h.symm (List.splitOn_ne_nil _ _)
  | some heading =>
    cases heading' with
    | none => exact absurd h (List.splitOn_ne_nil _ _)
    | some heading' =>
      have hjoined := congrArg ['\n'].intercalate h
      rw [headingLines, headingLines, List.intercalate_splitOn, List.intercalate_splitOn] at hjoined
      rw [String.toList_inj.mp hjoined]

theorem caretLine_inj {caret caret' : ℕ} (h : caretLine caret = caretLine caret') :
    caret = caret' := by
  have hlength := congrArg List.length h
  simpa [caretLine] using hlength

/-- The line of a place starts with a letter, and the line of a caret does not. -/
theorem placeLine_ne_caretLine (position column : ℤ) (line caret : ℕ) :
    placeLine position line column ≠ caretLine caret := by
  intro h
  have hmem : 'A' ∈ caretLine caret := h ▸ List.mem_cons_self
  simp [caretLine] at hmem

theorem Says.unique {text : String} {note note' : PositionNote} (h : Says text note)
    (h' : Says text note') : note = note' := by
  obtain ⟨heading, position, line, column, excerpt⟩ := note
  obtain ⟨heading', position', line', column', excerpt'⟩ := note'
  have hlines := h.symm.trans h'
  dsimp only at hlines
  -- The last line tells whether there is an excerpt, and so how many lines are behind the heading.
  cases excerpt with
  | none =>
    cases excerpt' with
    | none =>
      obtain ⟨hheading, hplace⟩ := List.append_inj' hlines rfl
      obtain ⟨rfl, rfl, rfl⟩ := placeLine_inj (List.singleton_inj.mp hplace)
      rw [headingLines_inj hheading]
    | some excerpt' =>
      have hlast := congrArg List.getLast? hlines
      simp [excerptLines, placeLine_ne_caretLine] at hlast
  | some excerpt =>
    obtain ⟨window, caret⟩ := excerpt
    cases excerpt' with
    | none =>
      have hlast := congrArg List.getLast? hlines.symm
      simp [excerptLines, placeLine_ne_caretLine] at hlast
    | some excerpt' =>
      obtain ⟨window', caret'⟩ := excerpt'
      obtain ⟨hheading, hshown⟩ := List.append_inj' hlines rfl
      obtain ⟨hplace, hexcerpt⟩ := List.cons.inj hshown
      obtain ⟨hwindow, hcaret⟩ := List.cons.inj hexcerpt
      obtain ⟨rfl, rfl, rfl⟩ := placeLine_inj hplace
      rw [headingLines_inj hheading, hwindow, caretLine_inj (List.singleton_inj.mp hcaret)]

/-! ## Rendered notes -/

theorem newline_notMem_decimalText (z : ℤ) : '\n' ∉ decimalText z := by
  intro h
  rcases isDecimal_or_eq_of_mem_decimalText h with hdigit | hsign
  · exact absurd hdigit (by decide)
  · exact absurd hsign (by decide)

theorem newline_notMem_placeLine (position column : ℤ) (line : ℕ) :
    '\n' ∉ placeLine position line column := by
  have hnumber := newline_notMem_decimalText
  refine List.not_mem_append (by decide +kernel) (List.not_mem_append (hnumber position) ?_)
  refine List.not_mem_append (by decide +kernel) (List.not_mem_append (hnumber line) ?_)
  refine List.not_mem_append (by decide +kernel) (List.not_mem_append (hnumber column) ?_)
  decide +kernel

theorem newline_notMem_caretLine (caret : ℕ) : '\n' ∉ caretLine caret := by
  simp [caretLine]

theorem toList_place (position column : ℤ) (line : ℕ) :
    s!"At position {position} (line {line}, column {column})".toList =
      placeLine position line column := by
  have hline : (toString line).toList = decimalText line :=
    Nat.toList_repr.trans (decimalText_natCast line).symm
  simp only [String.toList_append, List.append_assoc, hline]
  rfl

/-- A note is rendered by putting its lines together. -/
theorem toList_render (note : PositionNote) :
    note.render.toList = ['\n'].intercalate (note.heading.toList.map String.toList ++
      placeLine note.position note.line note.column :: excerptLines note.excerpt) := by
  obtain ⟨heading, position, line, column, excerpt⟩ := note
  rw [render, String.toList_intercalate, List.map_append, List.map_cons, toList_place]
  cases excerpt <;> simp [excerptLines, caretLine]

/-- A note whose window is a single line is rendered as a text that says it. -/
theorem says_render {note : PositionNote}
    (h : ∀ excerpt, note.excerpt = some excerpt → '\n' ∉ excerpt.window) :
    Says note.render note := by
  have hheading : (note.heading.toList.map String.toList).flatMap (·.splitOn '\n') =
      headingLines note.heading := by
    cases note.heading <;> simp [headingLines]
  have hplace : (placeLine note.position note.line note.column).splitOn '\n' =
      [placeLine note.position note.line note.column] :=
    List.splitOn_eq_singleton (newline_notMem_placeLine _ _ _)
  have hexcerpt : (excerptLines note.excerpt).flatMap (·.splitOn '\n') =
      excerptLines note.excerpt := by
    cases hnote : note.excerpt with
    | none => rfl
    | some excerpt =>
      have hwindow := List.splitOn_eq_singleton (h excerpt hnote)
      have hcaret := List.splitOn_eq_singleton (newline_notMem_caretLine excerpt.caret)
      simp [excerptLines, hwindow, hcaret]
  calc
    note.render.toList.splitOn '\n' = (note.heading.toList.map String.toList ++
        placeLine note.position note.line note.column :: excerptLines note.excerpt).flatMap
          (·.splitOn '\n') := by
      rw [toList_render, splitOn_intercalate_eq_flatMap (by simp)]
    _ = headingLines note.heading ++
        placeLine note.position note.line note.column :: excerptLines note.excerpt := by
      rw [List.flatMap_append, List.flatMap_cons, hheading, hplace, hexcerpt, List.singleton_append]

/-- The window is cut from a line of `splitLines`, so it is a single line. -/
theorem newline_notMem_window {source : Text} {line : ℕ} {column : ℤ} {excerpt : Excerpt}
    (h : Excerpt.of? source line column = some excerpt) : '\n' ∉ excerpt.window := by
  unfold Excerpt.of? at h
  split at h
  · contradiction
  · rename_i shown hline
    have hshown := newline_notMem_of_mem_splitLines (List.mem_of_getElem? hline)
    split at h
    · contradiction
    · split at h
      · cases h
        exact fun hmem ↦ hshown (List.mem_of_mem_take hmem)
      · cases h
        exact fun hmem ↦ hshown (List.mem_of_mem_drop (List.mem_of_mem_take hmem))

theorem says_locate (source : Text) (position : ℤ) (heading : Option String) :
    Says (locate source position heading).render (locate source position heading) :=
  says_render fun _ ↦ newline_notMem_window

end PositionNote

end Backtrack
