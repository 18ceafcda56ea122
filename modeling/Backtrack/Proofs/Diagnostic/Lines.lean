import Backtrack.Diagnostic
import Mathlib.Data.List.DropRight

/-!
# Two ways to count lines

A line of a text is delimited by newlines, while `splitLines` knows more separators.  `lineAround` is
the line that a place in a text lies on and `beforeLine` is what stands in front of that line, up to
its last newline.  There `splitLines` finds as many lines as there are newlines if no other separator
stands there, and more lines otherwise.
-/

namespace Backtrack

/-- What stands in front of the line that a place lies on. -/
def beforeLine (source : Text) (pos : ℕ) : Text := (source.take pos).rdropWhile (· != '\n')

/-- What stands on the line of a place in front of the place. -/
def lineFront (source : Text) (pos : ℕ) : Text := (source.take pos).rtakeWhile (· != '\n')

/-- The line that a place lies on, without its newline. -/
def lineAround (source : Text) (pos : ℕ) : Text :=
  lineFront source pos ++ (source.drop pos).takeWhile (· != '\n')

/-- Every separator of the text is a newline or the carriage return in front of one. -/
def NewlinesOnly : Text → Prop
  | [] => True
  | c :: rest =>
    (c ∈ lineBreaks → c = '\n' ∨ c = '\r' ∧ rest.head? = some '\n') ∧ NewlinesOnly rest

instance decidableNewlinesOnly : DecidablePred NewlinesOnly
  | [] => inferInstanceAs (Decidable True)
  | _ :: rest =>
    have := decidableNewlinesOnly rest
    inferInstanceAs (Decidable (_ ∧ _))

theorem newlinesOnly_of_forall {text : Text} (h : ∀ c ∈ text, c ∈ lineBreaks → c = '\n') :
    NewlinesOnly text := by
  induction text with
  | nil => trivial
  | cons c rest ih =>
    obtain ⟨hc, hrest⟩ := List.forall_mem_cons.mp h
    exact ⟨fun hbreak ↦ .inl (hc hbreak), ih hrest⟩

/-- A text that is empty or ends with a newline. -/
def EndsLine (text : Text) : Prop := ∀ c ∈ text.getLast?, c = '\n'

/-- The characters that do not end a line. -/
def inLine (c : Char) : Bool := !lineBreaks.contains c

theorem newline_mem_lineBreaks : '\n' ∈ lineBreaks := by decide

theorem ne_newline {c : Char} (h : c ∉ lineBreaks) : c ≠ '\n' := by
  rintro rfl
  exact h newline_mem_lineBreaks

theorem inLine_eq_false {c : Char} (h : c ∈ lineBreaks) : inLine c = false := by
  simp [inLine, h]

theorem inLine_eq_true {c : Char} (h : c ∉ lineBreaks) : inLine c = true := by
  simp [inLine, h]

/-! ## The lines of `splitLines` -/

section SplitLines

variable {c : Char} {rest : Text}

theorem splitLines_pair (rest : Text) :
    splitLines ('\r' :: '\n' :: rest) = [] :: splitLines rest := rfl

theorem splitLines_cons_of_mem (hbreak : c ∈ lineBreaks)
    (hpair : ¬ (c = '\r' ∧ rest.head? = some '\n')) :
    splitLines (c :: rest) = [] :: splitLines rest := by
  rw [splitLines, if_pos (List.contains_iff_mem.mpr hbreak)]
  rintro tail rfl rfl
  exact hpair ⟨rfl, rfl⟩

theorem splitLines_cons_of_notMem (hplain : c ∉ lineBreaks) :
    splitLines (c :: rest) =
      (c :: (splitLines rest).headD []) :: (splitLines rest).tail := by
  rw [splitLines, if_neg (mt List.contains_iff_mem.mp hplain)]
  · cases splitLines rest <;> rfl
  · rintro tail rfl -
    exact hplain (by decide)

/-- Texts are taken apart as `splitLines` does it. -/
theorem separator_induction {motive : Text → Prop} (nil : motive [])
    (pair : ∀ rest, motive rest → motive ('\r' :: '\n' :: rest))
    (separator : ∀ c rest, c ∈ lineBreaks → ¬ (c = '\r' ∧ rest.head? = some '\n') →
      motive rest → motive (c :: rest))
    (plain : ∀ c rest, c ∉ lineBreaks → motive rest → motive (c :: rest)) (text : Text) :
    motive text := by
  induction text using splitLines.induct with
  | case1 => exact nil
  | case2 rest ih => exact pair rest ih
  | case3 c rest hpair hbreak ih =>
    refine separator c rest (List.contains_iff_mem.mp hbreak) ?_ ih
    rintro ⟨hreturn, hhead⟩
    obtain ⟨tail, htail⟩ := List.head?_eq_some_iff.mp hhead
    exact hpair tail hreturn htail
  -- Whether the rest of the text has a line to put the character on makes no difference here.
  | case4 c rest _ hplain _ ih => exact plain c rest (mt List.contains_iff_mem.mpr hplain) ih
  | case5 c rest _ hplain _ _ _ ih => exact plain c rest (mt List.contains_iff_mem.mpr hplain) ih

theorem EndsLine.of_cons (h : EndsLine (c :: rest)) : EndsLine rest := by
  cases rest with
  | nil => simp [EndsLine]
  | cons d rest => simpa [EndsLine] using h

theorem EndsLine.ne_nil (h : EndsLine (c :: rest)) (hc : c ≠ '\n') : rest ≠ [] := by
  rintro rfl
  exact hc (h c rfl)

/-- There is a newline after a character that is none. -/
theorem EndsLine.count_pos (h : EndsLine (c :: rest)) (hc : c ≠ '\n') : 0 < rest.count '\n' := by
  have hlast := List.getLast?_eq_some_getLast (h.ne_nil hc)
  exact List.count_pos_iff.mpr (h.of_cons _ hlast ▸ List.mem_of_getLast? hlast)

theorem splitLines_ne_nil {text : Text} (h : text ≠ []) : splitLines text ≠ [] := by
  induction text using separator_induction with
  | nil => contradiction
  | pair rest _ => exact List.cons_ne_nil _ _
  | separator c rest hbreak hpair _ =>
    rw [splitLines_cons_of_mem hbreak hpair]
    exact List.cons_ne_nil _ _
  | plain c rest hplain _ =>
    rw [splitLines_cons_of_notMem hplain]
    exact List.cons_ne_nil _ _

/-- The first line goes up to the first separator. -/
theorem head?_splitLines {text : Text} (h : text ≠ []) :
    (splitLines text).head? = some (text.takeWhile inLine) := by
  induction text using separator_induction with
  | nil => contradiction
  | pair rest _ => rfl
  | separator c rest hbreak hpair _ =>
    rw [splitLines_cons_of_mem hbreak hpair, List.takeWhile_cons, inLine_eq_false hbreak]
    rfl
  | plain c rest hplain ih =>
    rw [splitLines_cons_of_notMem hplain, List.takeWhile_cons, inLine_eq_true hplain]
    cases rest with
    | nil => rfl
    | cons d rest =>
      have hrest := ih (List.cons_ne_nil d rest)
      simp [List.headD_eq_head?_getD, hrest]

/-- A line that goes as far as a place goes on with what stands there, up to the next separator. -/
theorem takeWhile_append_of_length_le {front rest : Text}
    (h : front.length ≤ ((front ++ rest).takeWhile inLine).length) :
    (front ++ rest).takeWhile inLine = front ++ rest.takeWhile inLine := by
  rw [List.takeWhile_append] at h ⊢
  split
  case isTrue => rfl
  case isFalse hshort =>
    rw [if_neg hshort] at h
    exact absurd (Nat.le_antisymm (List.takeWhile_prefix inLine).length_le h) hshort

theorem isPrefix_takeWhile_inLine (rest : Text) :
    rest.takeWhile inLine <+: rest.takeWhile (· != '\n') := by
  have hlines : rest.takeWhile inLine = (rest.takeWhile (· != '\n')).takeWhile inLine := by
    rw [List.takeWhile_takeWhile]
    congr 1
    funext c
    by_cases hc : c = '\n'
    · simp [hc, inLine_eq_false newline_mem_lineBreaks]
    · simp [hc]
  rw [hlines]
  exact List.takeWhile_prefix _

/-- After a newline the lines start afresh. -/
theorem splitLines_append {front : Text} (h : EndsLine front) (text : Text) :
    splitLines (front ++ text) = splitLines front ++ splitLines text := by
  induction front using separator_induction with
  | nil => rfl
  | pair rest ih =>
    rw [List.cons_append, List.cons_append, splitLines_pair, splitLines_pair, ih h.of_cons.of_cons,
      List.cons_append]
  | separator c rest hbreak hpair ih =>
    -- The front does not end with a carriage return, so none pairs with a newline of the text.
    have hpair' : ¬ (c = '\r' ∧ (rest ++ text).head? = some '\n') := by
      rintro ⟨rfl, hhead⟩
      rw [List.head?_append_of_ne_nil _ (h.ne_nil (by decide))] at hhead
      exact hpair ⟨rfl, hhead⟩
    rw [List.cons_append, splitLines_cons_of_mem hbreak hpair, splitLines_cons_of_mem hbreak hpair',
      ih h.of_cons, List.cons_append]
  | plain c rest hplain ih =>
    have hne : splitLines rest ≠ [] := splitLines_ne_nil (h.ne_nil (ne_newline hplain))
    rw [List.cons_append, splitLines_cons_of_notMem hplain, splitLines_cons_of_notMem hplain,
      ih h.of_cons]
    obtain ⟨line, lines, hlines⟩ := List.exists_cons_of_ne_nil hne
    simp [hlines]

/-- There is a line for each newline at least. -/
theorem count_newline_le (text : Text) : text.count '\n' ≤ (splitLines text).length := by
  induction text using separator_induction with
  | nil => rfl
  | pair rest ih => simpa [splitLines_pair] using ih
  | separator c rest hbreak hpair ih =>
    rw [splitLines_cons_of_mem hbreak hpair, List.count_cons, List.length_cons]
    split <;> omega
  | plain c rest hplain ih =>
    rw [splitLines_cons_of_notMem hplain, List.count_cons_of_ne (ne_newline hplain),
      List.length_cons, List.length_tail]
    omega

/-- There are more lines than newlines if there is any other separator. -/
theorem length_splitLines_eq_iff {text : Text} (h : EndsLine text) :
    (splitLines text).length = text.count '\n' ↔ NewlinesOnly text := by
  induction text using separator_induction with
  | nil => simp [splitLines, NewlinesOnly]
  | pair rest ih => simpa [splitLines_pair, NewlinesOnly] using ih h.of_cons.of_cons
  | separator c rest hbreak hpair ih =>
    have hle := count_newline_le rest
    have hrest := ih h.of_cons
    rw [splitLines_cons_of_mem hbreak hpair, List.length_cons, NewlinesOnly]
    by_cases hc : c = '\n'
    · subst hc
      simpa using hrest
    · rw [List.count_cons_of_ne hc]
      refine iff_of_false (by omega) fun honly ↦ ?_
      exact (honly.1 hbreak).elim hc hpair
  | plain c rest hplain ih =>
    have hne := splitLines_ne_nil (h.ne_nil (ne_newline hplain))
    have hpos := List.length_pos_of_ne_nil hne
    rw [splitLines_cons_of_notMem hplain, List.count_cons_of_ne (ne_newline hplain),
      List.length_cons, List.length_tail, Nat.sub_add_cancel hpos, ih h.of_cons, NewlinesOnly]
    exact (and_iff_right fun hbreak ↦ absurd hbreak hplain).symm

end SplitLines

/-! ## The lines between newlines -/

theorem head?_splitOn_newline (text : Text) :
    (text.splitOn '\n').head? = some (text.takeWhile (· != '\n')) := by
  induction text with
  | nil => rfl
  | cons c rest ih =>
    rw [List.splitOn_cons_eq_if_modifyHead, List.takeWhile_cons]
    by_cases hc : c = '\n'
    · simp [hc]
    · simp [hc, ih]

/-- After as many newlines as stand in front of a line it is the line's turn. -/
theorem getElem?_splitOn_append {front : Text} (h : EndsLine front) (text : Text) :
    ((front ++ text).splitOn '\n')[front.count '\n']? = (text.splitOn '\n').head? := by
  induction front with
  | nil => exact List.head?_eq_getElem?.symm
  | cons c rest ih =>
    have hrest := ih h.of_cons
    rw [List.cons_append, List.splitOn_cons_eq_if_modifyHead]
    by_cases hc : c = '\n'
    · simpa [hc] using hrest
    · have hpos := h.count_pos hc
      rwa [if_neg (mt beq_iff_eq.mp hc), List.count_cons_of_ne hc, List.getElem?_modifyHead,
        if_neg (Nat.pos_iff_ne_zero.mp hpos)]

section Place

variable (source : Text) (pos : ℕ)

theorem endsLine_beforeLine : EndsLine (beforeLine source pos) := by
  intro c hc
  obtain ⟨hne, rfl⟩ := List.mem_getLast?_eq_getLast hc
  simpa [beforeLine] using List.rdropWhile_last_not _ _ hne

theorem newline_notMem_lineFront : '\n' ∉ lineFront source pos := by
  intro h
  simpa using List.mem_rtakeWhile_imp h

theorem beforeLine_append_lineFront :
    beforeLine source pos ++ lineFront source pos = source.take pos :=
  List.rdropWhile_append_rtakeWhile

theorem count_beforeLine : (beforeLine source pos).count '\n' = (source.take pos).count '\n' := by
  rw [← beforeLine_append_lineFront, List.count_append,
    List.count_eq_zero_of_not_mem (newline_notMem_lineFront source pos), Nat.add_zero]

theorem beforeLine_append : beforeLine source pos ++ (lineFront source pos ++ source.drop pos) =
    source := by
  rw [← List.append_assoc, beforeLine_append_lineFront, List.take_append_drop]

theorem lineAround_eq_takeWhile :
    lineAround source pos = (lineFront source pos ++ source.drop pos).takeWhile (· != '\n') := by
  refine (List.takeWhile_append_of_pos fun c hc ↦ ?_).symm
  exact bne_iff_ne.mpr fun heq ↦ newline_notMem_lineFront source pos (heq ▸ hc)

/-- The line of a place is the one whose number is counted by the newlines in front of the place. -/
theorem getElem?_splitOn_lineAround :
    (source.splitOn '\n')[(source.take pos).count '\n']? = some (lineAround source pos) := by
  have hlines := getElem?_splitOn_append (endsLine_beforeLine source pos)
    (lineFront source pos ++ source.drop pos)
  rwa [beforeLine_append, count_beforeLine, head?_splitOn_newline,
    ← lineAround_eq_takeWhile] at hlines

end Place

end Backtrack
