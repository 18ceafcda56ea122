import Backtrack.Proofs.MaximalLayout

/-!
# Layout that goes on into more text

What the layout in front of a text comes to when more text is put behind the text.  A token at its end
stays where it is, a dash may turn out to be one half of the mark of a comment, and a text with nothing
but layout goes on: with the layout of what is put behind it or, if its last comment is still open,
behind the rest of that comment's line.

The main statement says what `layout` leaves in each of these cases.  A text with nothing but layout
either is complete or ends in an open comment, and not both.
-/

namespace Backtrack

open Alphabet

/-- Nothing but layout, where the last comment is still open at the end. -/
def EndsInComment (text : Text) : Prop :=
  ∃ front body, text = front ++ '-' :: '-' :: body ∧ IsLayout front ∧ newline ∉ body

variable {text rest front : Text}

/-! ## Texts with nothing but layout -/

theorem IsLayout.append (hfront : IsLayout front) (hrest : IsLayout rest) :
    IsLayout (front ++ rest) := by
  induction hfront with
  | nil => exact hrest
  | space hspace _ ih => exact .space hspace ih
  | @comment body after hbody _ ih =>
    have hcomment : IsLayout ('-' :: '-' :: (body ++ newline :: (after ++ rest))) :=
      .comment hbody ih
    simpa using hcomment

theorem EndsInComment.append_left (h : EndsInComment text) (hfront : IsLayout front) :
    EndsInComment (front ++ text) := by
  obtain ⟨before, body, rfl, hbefore, hbody⟩ := h
  exact ⟨front ++ before, body, (List.append_assoc _ _ _).symm, hfront.append hbefore, hbody⟩

theorem IsLayout.of_cons {c : Char} (h : IsLayout (c :: rest)) (hspace : isSpace c) :
    IsLayout rest := by
  cases h with
  | space _ hrest => exact hrest
  | comment => exact absurd hspace (by decide)

theorem EndsInComment.of_cons {c : Char} (h : EndsInComment (c :: rest)) (hspace : isSpace c) :
    EndsInComment rest := by
  obtain ⟨front, body, htext, hfront, hbody⟩ := h
  cases front with
  | nil =>
    cases htext
    exact absurd hspace (by decide)
  | cons d front =>
    cases htext
    exact ⟨front, body, rfl, hfront.of_cons hspace, hbody⟩

/-- A comment in front of nothing is open, and any other one has the newline behind it. -/
theorem LayoutUpTo.isLayout_or_endsInComment (h : LayoutUpTo [] text) :
    IsLayout text ∨ EndsInComment text := by
  induction h with
  | nil => exact .inl .nil
  | @space c rest hspace _ ih =>
    have hblank : IsLayout [c] := .space hspace .nil
    exact ih.imp hblank.append (·.append_left hblank)
  | @comment body front hbody hend _ ih =>
    cases front with
    | nil => exact .inr ⟨[], body, by simp, .nil, hbody⟩
    | cons c rest =>
      obtain rfl : c = newline := hend c rfl
      have hspace : isSpace newline := by decide
      have hcomment : IsLayout ('-' :: '-' :: (body ++ newline :: [])) := .comment hbody .nil
      have hsplit : '-' :: '-' :: (body ++ newline :: rest) =
          '-' :: '-' :: (body ++ newline :: []) ++ rest := by simp
      rw [hsplit]
      rcases ih with hrest | hrest
      · exact .inl (hcomment.append (hrest.of_cons hspace))
      · exact .inr ((hrest.of_cons hspace).append_left hcomment)

theorem isLayout_or_endsInComment (h : skipLayout text = []) :
    IsLayout text ∨ EndsInComment text := by
  obtain ⟨front, htext, hfront⟩ := exists_layoutUpTo text
  rw [h] at htext hfront
  rw [htext, List.append_nil]
  exact hfront.isLayout_or_endsInComment

/-! ## More text behind a text -/

/-- The comment goes on to the next newline. -/
theorem EndsInComment.skipLayout_append (h : EndsInComment text) (more : Text) :
    skipLayout (text ++ more) = skipLayout (more.dropWhile (· != newline)) := by
  obtain ⟨front, body, rfl, hfront, hbody⟩ := h
  calc
    skipLayout (front ++ '-' :: '-' :: body ++ more) =
        skipLayout (front ++ '-' :: '-' :: (body ++ more)) := by simp
    _ = skipLayout ('-' :: '-' :: (body ++ more)) := hfront.skipLayout_append _
    _ = skipLayout (more.dropWhile (· != newline)) := by
      rw [skipLayout_comment, dropWhile_ne_append hbody]

/-- Complete layout ends in no open comment, since a token can stand behind it. -/
theorem IsLayout.not_endsInComment (h : IsLayout text) : ¬ EndsInComment text := by
  intro hopen
  have hcomplete := h.skipLayout_append [')']
  rw [hopen.skipLayout_append] at hcomplete
  exact absurd hcomplete (by decide +kernel)

theorem LayoutUpTo.append (h : LayoutUpTo rest front) (hne : rest ≠ []) (more : Text) :
    LayoutUpTo (rest ++ more) front := by
  induction h with
  | nil => exact .nil
  | space hspace _ ih => exact .space hspace ih
  | @comment body front hbody hend _ ih =>
    refine .comment hbody ?_ ih
    have hfirst : front ++ rest ≠ [] := List.append_ne_nil_of_right_ne_nil front hne
    obtain ⟨c, last, hcons⟩ := List.exists_cons_of_ne_nil hfirst
    rw [hcons] at hend
    rw [← List.append_assoc, hcons]
    exact hend

/-- The layout in front of a text ends where it did, or later. -/
theorem skipLayout_append_of_ne_nil (h : skipLayout text ≠ []) (more : Text) :
    skipLayout (text ++ more) = skipLayout (skipLayout text ++ more) := by
  obtain ⟨front, htext, hfront⟩ := exists_layoutUpTo text
  calc
    skipLayout (text ++ more) = skipLayout (front ++ (skipLayout text ++ more)) := by
      rw [← List.append_assoc, ← htext]
    _ = skipLayout (skipLayout text ++ more) := (hfront.append h more).skipLayout_append

/-- Layout comes about in front only where two dashes come together. -/
theorem not_startsWithLayout_append {more : Text} (h : ¬ startsWithLayout text) (hne : text ≠ [])
    (hdash : text = ['-'] → more.head? ≠ some '-') : ¬ startsWithLayout (text ++ more) := by
  intro hlayout
  cases text with
  | nil => contradiction
  | cons c rest =>
    simp only [startsWithLayout, Bool.or_eq_true, not_or] at h
    have hstart : commentStart.isPrefixOf (c :: (rest ++ more)) := by
      simpa [startsWithLayout, h.1] using hlayout
    obtain ⟨after, hafter⟩ := exists_of_commentStart hstart
    obtain ⟨rfl, hrest⟩ := List.cons.inj hafter
    cases rest with
    | nil => exact hdash rfl (by rw [← List.nil_append more, hrest]; rfl)
    | cons d last =>
      obtain ⟨rfl, -⟩ := List.cons.inj hrest
      exact h.2 rfl

/-- What is left of a text stays in front of more text, if no mark of a comment comes about. -/
theorem skipLayout_append_of_bare {more : Text} (hne : skipLayout text ≠ [])
    (hdash : skipLayout text = ['-'] → more.head? ≠ some '-') :
    skipLayout (text ++ more) = skipLayout text ++ more := by
  have hbare := not_startsWithLayout_append (not_startsWithLayout_skipLayout text) hne hdash
  rw [skipLayout_append_of_ne_nil hne, skipLayout_of_not_startsWithLayout hbare]

/-- A dash that is left of a text makes the mark of a comment with a dash behind the text. -/
theorem skipLayout_append_of_dash {more : Text} (hleft : skipLayout text = ['-'])
    (hdash : more.head? = some '-') :
    skipLayout (text ++ more) = skipLayout (more.dropWhile (· != newline)) := by
  obtain ⟨after, rfl⟩ := List.head?_eq_some_iff.mp hdash
  have hne : skipLayout text ≠ [] := by simp [hleft]
  calc
    skipLayout (text ++ '-' :: after) = skipLayout (['-'] ++ '-' :: after) := by
      rw [skipLayout_append_of_ne_nil hne, hleft]
    _ = skipLayout (after.dropWhile (· != newline)) := skipLayout_comment after
    _ = skipLayout (('-' :: after).dropWhile (· != newline)) := by
      rw [List.dropWhile_cons_of_pos (by decide)]

namespace Parser

theorem layout_eq_ok_iff : layout text = .ok [((), rest)] ↔ skipLayout text = rest := by
  rw [layout_apply]
  simp

/-- What `layout` leaves if more text is put behind a text.  Something left that is no single dash is
left with the new text behind it, and so is a single dash with no other dash behind it.  Two dashes
that come together are the mark of a comment.  If nothing was left, the new text is read from its
beginning, or goes on with an open comment.  A comment goes up to the first newline, and nothing is
left if there is none. -/
theorem layout_append {text rest : Text} (h : layout text = .ok [((), rest)]) (more : Text) :
    (rest ≠ [] → rest ≠ ['-'] → layout (text ++ more) = .ok [((), rest ++ more)]) ∧
    (rest = ['-'] → more.head? ≠ some '-' → layout (text ++ more) = .ok [((), '-' :: more)]) ∧
    (rest = ['-'] → more.head? = some '-' →
      layout (text ++ more) = layout (more.dropWhile (· != newline))) ∧
    (rest = [] → ¬ EndsInComment text → layout (text ++ more) = layout more) ∧
    (rest = [] → EndsInComment text →
      layout (text ++ more) = layout (more.dropWhile (· != newline))) ∧
    (newline ∉ more → layout (more.dropWhile (· != newline)) = .ok [((), [])]) := by
  obtain rfl := layout_eq_ok_iff.mp h
  simp only [layout_apply]
  refine ⟨?token, ?dash, ?mark, ?complete, ?comment, ?unended⟩
  case token =>
    intro hne hdash
    rw [skipLayout_append_of_bare hne fun hleft ↦ absurd hleft hdash]
  case dash =>
    intro hleft hdash
    rw [skipLayout_append_of_bare (by simp [hleft]) fun _ ↦ hdash, hleft]
    rfl
  case mark =>
    intro hleft hdash
    rw [skipLayout_append_of_dash hleft hdash]
  case complete =>
    intro hleft hclosed
    have hlayout : IsLayout text := (isLayout_or_endsInComment hleft).resolve_right hclosed
    rw [hlayout.skipLayout_append]
  case comment =>
    intro _ hopen
    rw [hopen.skipLayout_append]
  case unended =>
    intro hnone
    have hdrop := dropWhile_ne_append hnone []
    rw [List.append_nil, List.dropWhile_nil] at hdrop
    rw [hdrop, skipLayout_nil]

/-- A parenthesis, a dash in front of an arrow and of another dash, layout with its newline, and an open
comment, each with more text behind it. -/
theorem layout_append_seams :
    layout " (--x".toList = .ok [((), "(--x".toList)] ∧
    layout " ->".toList = .ok [((), "->".toList)] ∧
    layout " -- x\ny".toList = .ok [((), "y".toList)] ∧
    layout "-- a\n y".toList = .ok [((), "y".toList)] ∧
    layout "-- a-- x\ny".toList = .ok [((), "y".toList)] ∧
    layout "-- a-".toList = .ok [((), [])] := by
  have hparen : layout " (".toList = .ok [((), "(".toList)] :=
    layout_eq_ok_iff.mpr (by decide +kernel)
  have hdash : layout " -".toList = .ok [((), ['-'])] := layout_eq_ok_iff.mpr (by decide +kernel)
  have hline : layout "-- a\n".toList = .ok [((), [])] := layout_eq_ok_iff.mpr (by decide +kernel)
  have hcomment : layout "-- a".toList = .ok [((), [])] := layout_eq_ok_iff.mpr (by decide +kernel)
  have hname : layout " y".toList = .ok [((), "y".toList)] :=
    layout_eq_ok_iff.mpr (by decide +kernel)
  have hnext : layout "\ny".toList = .ok [((), "y".toList)] :=
    layout_eq_ok_iff.mpr (by decide +kernel)
  have hcomplete : IsLayout ('-' :: '-' :: (" a".toList ++ newline :: [])) := .comment (by decide) .nil
  have hopen : EndsInComment "-- a".toList := ⟨[], " a".toList, rfl, .nil, by decide⟩
  obtain ⟨htoken, -⟩ := layout_append hparen "--x".toList
  obtain ⟨-, harrow, -⟩ := layout_append hdash ">".toList
  obtain ⟨-, -, hmark, -⟩ := layout_append hdash "- x\ny".toList
  obtain ⟨-, -, -, hclosed, -⟩ := layout_append hline " y".toList
  obtain ⟨-, -, -, -, hlonger, -⟩ := layout_append hcomment "-- x\ny".toList
  obtain ⟨-, -, -, -, hlast, hend⟩ := layout_append hcomment "-".toList
  refine ⟨htoken (by decide) (by decide), harrow rfl (by decide), ?_, ?_, ?_, ?_⟩
  · exact (hmark rfl rfl).trans hnext
  · exact (hclosed rfl hcomplete.not_endsInComment).trans hname
  · exact (hlonger rfl hopen).trans hnext
  · exact (hlast rfl hopen).trans (hend (by decide))

end Parser

end Backtrack
