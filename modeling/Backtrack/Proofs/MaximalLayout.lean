import Backtrack.Proofs.Layout

/-!
# All the layout in front of a text

`LayoutUpTo rest front` says what can stand in front of `rest` without being a token: whitespace and
comments, each of which goes on to the next newline of the whole text or to its end.  A text is split
at its layout if such a front part is cut off and no layout is in front of the rest.

The main statement is that `layout` splits every text in this way, in one way, and that there is no
other place to split it.  Layout that was read is not read again: reading it twice, behind a token
or in front of a whole text, is reading it once.
-/

namespace Backtrack

open Alphabet

/-- Whitespace and comments in front of `rest`, where a comment ends only with its line. -/
inductive LayoutUpTo (rest : Text) : Text → Prop
  | nil : LayoutUpTo rest []
  | space {c : Char} {front : Text} (hspace : isSpace c) (hfront : LayoutUpTo rest front) :
    LayoutUpTo rest (c :: front)
  | comment {body front : Text} (hbody : newline ∉ body)
    (hend : ∀ c, (front ++ rest).head? = some c → c = newline) (hfront : LayoutUpTo rest front) :
    LayoutUpTo rest ('-' :: '-' :: (body ++ front))

/-- The text is `front` and then `rest`, cut where its leading layout ends. -/
structure SplitAtLayout (text front rest : Text) : Prop where
  eq_append : text = front ++ rest
  front_layout : LayoutUpTo rest front
  rest_bare : ¬ startsWithLayout rest

/-! ## Lines -/

theorem dropWhile_of_head? {text : Text} (h : ∀ c, text.head? = some c → c = newline) :
    text.dropWhile (· != newline) = text := by
  cases text with
  | nil => rfl
  | cons c rest =>
    have hc : c = newline := h c rfl
    rw [hc, List.dropWhile_cons_of_neg (by simp)]

theorem head?_dropWhile_newline (text : Text) :
    ∀ c, (text.dropWhile (· != newline)).head? = some c → c = newline := by
  intro c hc
  have hnot := List.head?_dropWhile_not (· != newline) text
  rw [hc] at hnot
  simpa using hnot

theorem newline_not_mem_takeWhile (text : Text) : newline ∉ text.takeWhile (· != newline) := by
  intro hmem
  have hall := List.all_eq_true.mp (List.all_takeWhile (p := (· != newline)) (l := text)) _ hmem
  simp at hall

theorem exists_of_commentStart {text : Text} (h : commentStart.isPrefixOf text) :
    ∃ after, text = '-' :: '-' :: after := by
  obtain ⟨after, hafter⟩ := List.isPrefixOf_iff_prefix.mp h
  exact ⟨after, hafter.symm⟩

/-! ## The split -/

/-- A comment in front of a text that ends its line is dropped as a whole. -/
theorem skipLayout_comment_append {body text : Text} (hbody : newline ∉ body)
    (hend : ∀ c, text.head? = some c → c = newline) :
    skipLayout ('-' :: '-' :: (body ++ text)) = skipLayout text := by
  rw [skipLayout_comment, dropWhile_ne_append hbody, dropWhile_of_head? hend]

theorem LayoutUpTo.skipLayout_append {front rest : Text} (h : LayoutUpTo rest front) :
    skipLayout (front ++ rest) = skipLayout rest := by
  induction h with
  | nil => rfl
  | space hspace _ ih => rw [List.cons_append, skipLayout_of_isSpace hspace, ih]
  | @comment body front hbody hend _ ih =>
    calc
      skipLayout ('-' :: '-' :: (body ++ front) ++ rest) =
          skipLayout ('-' :: '-' :: (body ++ (front ++ rest))) := by simp
      _ = skipLayout (front ++ rest) := skipLayout_comment_append hbody hend
      _ = skipLayout rest := ih

/-- The rest of a split is what is left without the leading layout. -/
theorem SplitAtLayout.rest_eq {text front rest : Text} (h : SplitAtLayout text front rest) :
    rest = skipLayout text := by
  rw [h.eq_append, h.front_layout.skipLayout_append,
    skipLayout_of_not_startsWithLayout h.rest_bare]

theorem exists_layoutUpTo (text : Text) :
    ∃ front, text = front ++ skipLayout text ∧ LayoutUpTo (skipLayout text) front := by
  fun_induction skipLayout text with
  | case1 => exact ⟨[], rfl, .nil⟩
  | case2 c rest hspace ih =>
    obtain ⟨front, hrest, hfront⟩ := ih
    exact ⟨c :: front, congrArg (c :: ·) hrest, .space hspace hfront⟩
  | case3 c rest hspace hstart ih =>
    obtain ⟨front, hrest, hfront⟩ := ih
    obtain ⟨after, hafter⟩ := exists_of_commentStart hstart
    cases hafter
    -- What is dropped behind the two dashes is the rest of their line.
    have hdrop : ('-' :: after).dropWhile (· != newline) = after.dropWhile (· != newline) :=
      List.dropWhile_cons_of_pos (by decide)
    rw [hdrop] at hrest hfront ⊢
    have hend : ∀ c, (front ++ skipLayout (after.dropWhile (· != newline))).head? = some c →
        c = newline := by
      rw [← hrest]
      exact head?_dropWhile_newline after
    refine ⟨'-' :: '-' :: (after.takeWhile (· != newline) ++ front), ?_,
      .comment (newline_not_mem_takeWhile after) hend hfront⟩
    calc
      '-' :: '-' :: after =
          '-' :: '-' :: (after.takeWhile (· != newline) ++ after.dropWhile (· != newline)) := by
        rw [List.takeWhile_append_dropWhile]
      _ = '-' :: '-' :: (after.takeWhile (· != newline) ++
          (front ++ skipLayout (after.dropWhile (· != newline)))) := by rw [← hrest]
      _ = _ := by simp
  | case4 c rest hspace hstart => exact ⟨[], rfl, .nil⟩

theorem exists_splitAtLayout (text : Text) : ∃ front, SplitAtLayout text front (skipLayout text) := by
  obtain ⟨front, htext, hfront⟩ := exists_layoutUpTo text
  exact ⟨front, htext, hfront, not_startsWithLayout_skipLayout text⟩

namespace Parser

variable {α : Type}

theorem lexeme_lexeme (p : Parser α) : lexeme (lexeme p) = lexeme p := by
  funext inp
  cases hrun : p inp with
  | error fault =>
    have hlexeme : lexeme p inp = .error fault := bind_of_error hrun _
    rw [hlexeme]
    exact bind_of_error hlexeme _
  | ok outcomes =>
    rw [lexeme_of_ok (lexeme_of_ok hrun), lexeme_of_ok hrun, List.map_map]
    simp only [Function.comp_def, skipLayout_skipLayout]

theorem parse_parse (p : Parser α) : parse (parse p) = parse p := by
  funext inp
  rw [parse_apply, parse_apply, parse_apply, skipLayout_skipLayout]

/-- On every text `layout` has one outcome, whose rest is the only place to split the text at its
layout.  Reading layout twice is reading it once, also for parsers that fault. -/
theorem layout_maximal :
    (∀ inp, ∃ front rest, layout inp = .ok [((), rest)] ∧ SplitAtLayout inp front rest ∧
      ∀ other last, SplitAtLayout inp other last → last = rest) ∧
    ∀ {α : Type} (p : Parser α), lexeme (lexeme p) = lexeme p ∧ parse (parse p) = parse p := by
  constructor
  · intro inp
    obtain ⟨front, hsplit⟩ := exists_splitAtLayout inp
    refine ⟨front, skipLayout inp, layout_apply inp, hsplit, ?_⟩
    intro other last hother
    exact hother.rest_eq
  · intro α p
    exact ⟨lexeme_lexeme p, parse_parse p⟩

/-- A blank, a comment with its newline, and a dash that starts no comment. -/
theorem layout_maximal_dash : layout " -- a\n-b".toList = .ok [((), "-b".toList)] := by
  have hsplit : SplitAtLayout " -- a\n-b".toList " -- a\n".toList "-b".toList := by
    constructor
    case eq_append => rfl
    case front_layout =>
      have hlast : LayoutUpTo "-b".toList "\n".toList := .space (by decide) .nil
      have hcomment : LayoutUpTo "-b".toList ('-' :: '-' :: (" a".toList ++ "\n".toList)) :=
        .comment (by decide) (fun _ hc ↦ (Option.some.inj hc).symm) hlast
      exact .space (by decide) hcomment
    case rest_bare => decide
  obtain ⟨front, rest, hlayout, -, hunique⟩ := layout_maximal.1 " -- a\n-b".toList
  rw [hlayout, hunique _ _ hsplit]

end Parser

end Backtrack
