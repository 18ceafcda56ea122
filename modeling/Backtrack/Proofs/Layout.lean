import Backtrack.Lexical
import Backtrack.Proofs.Outcome

/-!
# The layout in front of a text

`skipLayout` drops whitespace and comments from the front of a text until neither is there.  The
main statement is that `layout` has exactly one outcome on every text and leaves what `skipLayout`
leaves; the runs of tokens and of `parse` follow.  Layout that is complete, in that each comment
ends with its newline, vanishes in front of any text.
-/

namespace Backtrack

open Alphabet

/-- Whether there is layout at the front of a text. -/
def startsWithLayout : Text → Bool
  | [] => false
  | c :: rest => isSpace c || commentStart.isPrefixOf (c :: rest)

/-- What is left of a text without the layout at its front. -/
def skipLayout : Text → Text
  | [] => []
  | c :: rest =>
    if isSpace c then skipLayout rest
    else if commentStart.isPrefixOf (c :: rest) then skipLayout (rest.dropWhile (· != newline))
    else c :: rest
termination_by text => text.length
decreasing_by
  · simp
  · exact Nat.lt_succ_of_le (List.dropWhile_sublist _).length_le

/-- Layout is one of three characters or two minus signs. -/
theorem startsWithLayout_iff {text : Text} : startsWithLayout text ↔
    (∃ c rest, text = c :: rest ∧ (c = '\t' ∨ c = '\n' ∨ c = ' ')) ∨ ['-', '-'] <+: text := by
  cases text with
  | nil => simp [startsWithLayout]
  | cons c rest =>
    have hcomment : commentStart.isPrefixOf (c :: rest) ↔ ['-', '-'] <+: c :: rest :=
      List.isPrefixOf_iff_prefix
    simp [startsWithLayout, hcomment, isSpace_iff]

@[simp]
theorem skipLayout_nil : skipLayout [] = [] := by
  rw [skipLayout]

theorem skipLayout_of_isSpace {c : Char} (h : isSpace c) (rest : Text) :
    skipLayout (c :: rest) = skipLayout rest := by
  rw [skipLayout, if_pos h]

/-- A comment is dropped up to the newline that ends it. -/
theorem skipLayout_comment (rest : Text) :
    skipLayout ('-' :: '-' :: rest) = skipLayout (rest.dropWhile (· != newline)) := by
  have hspace : ¬ isSpace '-' := by decide
  have hstart : commentStart.isPrefixOf ('-' :: '-' :: rest) := by simp [commentStart]
  rw [skipLayout, if_neg hspace, if_pos hstart, List.dropWhile_cons_of_pos (by decide)]

theorem skipLayout_of_not_startsWithLayout {text : Text} (h : ¬ startsWithLayout text) :
    skipLayout text = text := by
  cases text with
  | nil => rw [skipLayout]
  | cons c rest =>
    simp only [startsWithLayout, Bool.or_eq_true, not_or] at h
    rw [skipLayout, if_neg h.1, if_neg h.2]

theorem not_startsWithLayout_skipLayout (text : Text) : ¬ startsWithLayout (skipLayout text) := by
  fun_induction skipLayout text with
  | case1 => simp [startsWithLayout]
  | case2 c rest hspace ih => exact ih
  | case3 c rest hspace hstart ih => exact ih
  | case4 c rest hspace hstart => simp [startsWithLayout, hspace, hstart]

@[simp]
theorem skipLayout_skipLayout (text : Text) : skipLayout (skipLayout text) = skipLayout text :=
  skipLayout_of_not_startsWithLayout (not_startsWithLayout_skipLayout text)

theorem skipLayout_suffix (text : Text) : skipLayout text <:+ text := by
  fun_induction skipLayout text with
  | case1 => exact List.suffix_refl []
  | case2 c rest hspace ih => exact ih.trans (List.suffix_cons c rest)
  | case3 c rest hspace hstart ih =>
    exact (ih.trans (List.dropWhile_suffix _)).trans (List.suffix_cons c rest)
  | case4 c rest hspace hstart => exact List.suffix_refl _

theorem length_skipLayout_le (text : Text) : (skipLayout text).length ≤ text.length :=
  (skipLayout_suffix text).length_le

theorem skipLayout_dropWhile_isSpace (text : Text) :
    skipLayout (text.dropWhile isSpace) = skipLayout text := by
  induction text with
  | nil => rfl
  | cons c rest ih =>
    by_cases hspace : isSpace c
    · rw [List.dropWhile_cons_of_pos hspace, ih, skipLayout_of_isSpace hspace]
    · rw [List.dropWhile_cons_of_neg hspace]

/-! ## Complete layout -/

/-- Whitespace and comments, each comment with its newline. -/
inductive IsLayout : Text → Prop
  | nil : IsLayout []
  | space {c : Char} {rest : Text} (hspace : isSpace c) (hrest : IsLayout rest) :
    IsLayout (c :: rest)
  | comment {body rest : Text} (hbody : newline ∉ body) (hrest : IsLayout rest) :
    IsLayout ('-' :: '-' :: (body ++ newline :: rest))

/-- The first piece of layout is one of three characters, or a comment with its newline. -/
theorem isLayout_iff {text : Text} : IsLayout text ↔ text = [] ∨
    (∃ c rest, text = c :: rest ∧ (c = '\t' ∨ c = '\n' ∨ c = ' ') ∧ IsLayout rest) ∨
    ∃ body rest, text = '-' :: '-' :: (body ++ '\n' :: rest) ∧ '\n' ∉ body ∧ IsLayout rest := by
  constructor
  · intro h
    cases h with
    | nil => exact .inl rfl
    | space hspace hrest => exact .inr (.inl ⟨_, _, rfl, isSpace_iff.mp hspace, hrest⟩)
    | comment hbody hrest => exact .inr (.inr ⟨_, _, rfl, hbody, hrest⟩)
  · rintro (rfl | ⟨c, rest, rfl, hspace, hrest⟩ | ⟨body, rest, rfl, hbody, hrest⟩)
    · exact .nil
    · exact .space (isSpace_iff.mpr hspace) hrest
    · exact .comment hbody hrest

theorem dropWhile_ne_append {c : Char} {body : Text} (h : c ∉ body) (rest : Text) :
    (body ++ rest).dropWhile (· != c) = rest.dropWhile (· != c) := by
  apply List.dropWhile_append_of_pos
  intro d hd
  exact bne_iff_ne.mpr fun same ↦ h (same ▸ hd)

theorem dropWhile_ne_append_cons {c : Char} {body : Text} (h : c ∉ body) (rest : Text) :
    (body ++ c :: rest).dropWhile (· != c) = c :: rest := by
  rw [dropWhile_ne_append h, List.dropWhile_cons_of_neg (by simp)]

/-- Complete layout in front of a text does not matter. -/
theorem IsLayout.skipLayout_append {front : Text} (h : IsLayout front) (text : Text) :
    skipLayout (front ++ text) = skipLayout text := by
  induction h with
  | nil => rfl
  | space hspace _ ih => rw [List.cons_append, skipLayout_of_isSpace hspace, ih]
  | @comment body rest hbody _ ih =>
    have hnewline : isSpace newline := by decide
    calc
      skipLayout ('-' :: '-' :: (body ++ newline :: rest) ++ text) =
          skipLayout ('-' :: '-' :: (body ++ newline :: (rest ++ text))) := by simp
      _ = skipLayout (newline :: (rest ++ text)) := by
        rw [skipLayout_comment, dropWhile_ne_append_cons hbody]
      _ = skipLayout text := by rw [skipLayout_of_isSpace hnewline, ih]

theorem IsLayout.skipLayout_eq_nil {text : Text} (h : IsLayout text) : skipLayout text = [] := by
  have happend := h.skipLayout_append []
  rw [List.append_nil, skipLayout_nil] at happend
  exact happend

theorem isLayout_of_isSpace {text : Text} (h : ∀ c ∈ text, isSpace c) : IsLayout text := by
  induction text with
  | nil => exact .nil
  | cons c rest ih =>
    obtain ⟨hc, hrest⟩ := List.forall_mem_cons.mp h
    exact .space hc (ih hrest)

namespace Parser

variable {α : Type}

theorem spaces_cons (c : Char) (rest : Text) :
    spaces (c :: rest) = .ok (if isSpace c then [((), rest.dropWhile isSpace)] else []) := by
  unfold spaces replace
  by_cases h : isSpace c
  · have hread : satisfy isSpace (c :: rest) = .ok [(c, rest)] := by simp [h]
    rw [if_pos h]
    exact map_of_single ((bind_of_single hread _).trans (takeWhile_apply _ _)) _
  · have hread : satisfy isSpace (c :: rest) = .ok [] := by simp [h]
    rw [if_neg h]
    exact map_of_nil (bind_of_nil hread _) _

theorem lineComment_apply (inp : Text) :
    lineComment inp = .ok (if commentStart.isPrefixOf inp then
      [((), (inp.drop commentStart.length).dropWhile (· != newline))] else []) := by
  unfold lineComment commentLine replace
  by_cases h : commentStart.isPrefixOf inp
  · have hread : string commentStart inp = .ok [(commentStart, inp.drop commentStart.length)] :=
      if_pos h
    rw [if_pos h]
    exact map_of_single ((bind_of_single hread _).trans (takeWhile_apply _ _)) _
  · have hread : string commentStart inp = .ok [] := if_neg h
    rw [if_neg h]
    exact map_of_nil (bind_of_nil hread _) _

/-- One piece of layout, which is a run of whitespace or a comment. -/
theorem layoutPiece_of_startsWithLayout {inp : Text} (h : startsWithLayout inp) :
    ∃ rest, firstOf [spaces, lineComment] inp = .ok [((), rest)] ∧
      rest.length < inp.length ∧ skipLayout rest = skipLayout inp := by
  cases inp with
  | nil => simp [startsWithLayout] at h
  | cons c text =>
    by_cases hspace : isSpace c
    · have hread : spaces (c :: text) = .ok [((), text.dropWhile isSpace)] := by
        rw [spaces_cons, if_pos hspace]
      refine ⟨text.dropWhile isSpace, firstOf_cons_of_cons hread _, ?_, ?_⟩
      · exact Nat.lt_succ_of_le (List.dropWhile_sublist _).length_le
      · rw [skipLayout_dropWhile_isSpace, skipLayout_of_isSpace hspace]
    · have hstart : commentStart.isPrefixOf (c :: text) := by
        simpa [startsWithLayout, hspace] using h
      obtain ⟨body, hbody⟩ := List.isPrefixOf_iff_prefix.mp hstart
      have hread : lineComment (c :: text) = .ok [((), body.dropWhile (· != newline))] := by
        rw [lineComment_apply, if_pos hstart, ← hbody, List.drop_left]
      refine ⟨body.dropWhile (· != newline), ?_, ?_, ?_⟩
      · rw [firstOf_cons_of_nil (by rw [spaces_cons, if_neg hspace])]
        exact firstOf_cons_of_cons hread _
      · have hle : (body.dropWhile (· != newline)).length ≤ body.length :=
          (List.dropWhile_sublist _).length_le
        rw [← hbody, List.length_append]
        exact Nat.lt_of_le_of_lt hle (Nat.lt_add_of_pos_left (by decide))
      · rw [← hbody]
        exact (skipLayout_comment body).symm

theorem layoutPiece_of_not_startsWithLayout {inp : Text} (h : ¬ startsWithLayout inp) :
    firstOf [spaces, lineComment] inp = .ok [] := by
  cases inp with
  | nil => rfl
  | cons c text =>
    simp only [startsWithLayout, Bool.or_eq_true, not_or] at h
    rw [firstOf_cons_of_nil (by rw [spaces_cons, if_neg h.1]),
      firstOf_cons_of_nil (by rw [lineComment_apply, if_neg h.2]), firstOf_nil]

theorem repeatFirst_layoutPiece (inp : Text) :
    ∃ pieces, repeatFirst (firstOf [spaces, lineComment]) inp = .ok (pieces, skipLayout inp) := by
  induction hlen : inp.length using Nat.strongRecOn generalizing inp with
  | ind n ih =>
    by_cases h : startsWithLayout inp
    · obtain ⟨rest, hpiece, shorter, hskip⟩ := layoutPiece_of_startsWithLayout h
      obtain ⟨pieces, hpieces⟩ := ih _ (hlen ▸ shorter) rest rfl
      refine ⟨() :: pieces, ?_⟩
      rw [repeatFirst_of_single hpiece shorter, hpieces, hskip]
      rfl
    · refine ⟨[], ?_⟩
      rw [repeatFirst_of_nil (layoutPiece_of_not_startsWithLayout h),
        skipLayout_of_not_startsWithLayout h]

/-- Layout is read in one way on every text, and all of it is read. -/
theorem layout_apply (inp : Text) : layout inp = .ok [((), skipLayout inp)] := by
  obtain ⟨pieces, hpieces⟩ := repeatFirst_layoutPiece inp
  have hgreedy : greedy (firstOf [spaces, lineComment]) inp = .ok [(pieces, skipLayout inp)] := by
    rw [greedy, hpieces]
    rfl
  exact map_of_single hgreedy fun _ ↦ ()

theorem replace_layout (value : α) (inp : Text) :
    replace layout value inp = .ok [(value, skipLayout inp)] := map_of_single (layout_apply inp) _

theorem lexeme_of_ok {p : Parser α} {inp : Text} {outcomes : Outcomes α}
    (h : p inp = .ok outcomes) :
    lexeme p inp = .ok (outcomes.map fun (value, rest) ↦ (value, skipLayout rest)) := by
  unfold lexeme
  rw [bind_of_ok h]
  simp only [replace_layout]
  exact gather_ok_singleton _ outcomes

theorem symbol_apply (text inp : Text) :
    symbol text inp = .ok (if text.isPrefixOf inp then
      [(text, skipLayout (inp.drop text.length))] else []) := by
  by_cases h : text.isPrefixOf inp
  · have hread : string text inp = .ok [(text, inp.drop text.length)] := if_pos h
    rw [if_pos h]
    exact lexeme_of_ok hread
  · have hread : string text inp = .ok [] := if_neg h
    rw [if_neg h]
    exact lexeme_of_ok hread

theorem parse_apply (p : Parser α) (inp : Text) : parse p inp = p (skipLayout inp) :=
  bind_of_single (layout_apply inp) _

end Parser

end Backtrack
