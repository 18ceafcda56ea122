import Backtrack.Proofs.Arith.Language
import Backtrack.Proofs.Lambda.Words
import Backtrack.Proofs.OpenLayout

/-!
# Texts with more text behind them

What is read of a text depends on what stands behind it: a number or a word may go on, and a comment
that is open at the end of the text goes on to the end of its line.  A `joint` that separates is a
text behind which nothing of this makes a difference.  It begins with whitespace, and the comment that
may be open in front of it takes no token of it.

The main statements are that the leading layout of a text with such a joint behind it is the leading
layout of the text, that a lexicon whose tokens end at whitespace reads the same tokens with the joint
there as without it, and that both grammars have such lexicons.
-/

namespace Backtrack

open Alphabet

/-- Begins with whitespace, and is left with the same tokens by a comment that is open before it. -/
structure Separates (joint : Text) : Prop where
  begins : ∃ c rest, joint = c :: rest ∧ isSpace c
  closes : skipLayout (joint.dropWhile (· != newline)) = skipLayout joint

/-- What a rest of a text is if `joint` stands behind the text.  Where nothing is left of the text,
the layout in front of it has gone on into the joint. -/
def attach (joint : Text) : Text → Text
  | [] => skipLayout joint
  | c :: rest => c :: rest ++ joint

variable {joint text : Text}

@[simp]
theorem attach_nil (joint : Text) : attach joint [] = skipLayout joint := rfl

theorem attach_of_ne_nil (h : text ≠ []) : attach joint text = text ++ joint := by
  cases text with
  | nil => contradiction
  | cons c rest => rfl

/-! ## Joints -/

theorem separates_newline (rest : Text) : Separates (newline :: rest) where
  begins := ⟨newline, rest, rfl, by decide⟩
  closes := by rw [List.dropWhile_cons_of_neg (by simp)]

theorem IsLayout.dropWhile_newline (h : IsLayout joint) :
    IsLayout (joint.dropWhile (· != newline)) := by
  induction h with
  | nil => exact .nil
  | @space c rest hspace hrest ih =>
    by_cases hc : c = newline
    · rw [hc, List.dropWhile_cons_of_neg (by simp)]
      exact .space (by decide) hrest
    · rw [List.dropWhile_cons_of_pos (p := (· != newline)) (bne_iff_ne.mpr hc)]
      exact ih
  | @comment body rest hbody hrest ih =>
    rw [List.dropWhile_cons_of_pos (by decide), List.dropWhile_cons_of_pos (by decide),
      dropWhile_ne_append_cons hbody]
    exact .space (by decide) hrest

theorem IsLayout.separates (h : IsLayout joint) (hbegins : ∃ c rest, joint = c :: rest ∧ isSpace c) :
    Separates joint where
  begins := hbegins
  closes := by rw [h.dropWhile_newline.skipLayout_eq_nil, h.skipLayout_eq_nil]

/-! ## Layout in front of a joint -/

theorem Separates.head?_ne_dash (h : Separates joint) : joint.head? ≠ some '-' := by
  obtain ⟨c, rest, rfl, hspace⟩ := h.begins
  rintro hdash
  cases hdash
  exact absurd hspace (by decide)

theorem Separates.skipLayout_append (h : Separates joint) (text : Text) :
    skipLayout (text ++ joint) = attach joint (skipLayout text) := by
  by_cases hleft : skipLayout text = []
  · rw [hleft, attach_nil]
    rcases isLayout_or_endsInComment hleft with hcomplete | hopen
    · exact hcomplete.skipLayout_append joint
    · rw [hopen.skipLayout_append, h.closes]
  · rw [attach_of_ne_nil hleft, skipLayout_append_of_bare hleft fun _ ↦ h.head?_ne_dash]

/-! ## Tokens in front of a joint -/

namespace Lexicon

variable {τ : Type} {L : Lexicon τ} {rest : Text} {token : τ} {tokens : List τ}

/-- Whitespace ends a token and is part of none. -/
def EndsAtSpace (L : Lexicon τ) : Prop :=
  ∀ text c rest, isSpace c →
    L.read (text ++ c :: rest) = (L.read text).map fun (token, after) ↦ (token, after ++ c :: rest)

theorem next_attach (hL : EndsAtSpace L) (h : Separates joint) (hne : text ≠ []) :
    L.next (attach joint text) = (L.next text).map (Prod.map id (attach joint)) := by
  obtain ⟨c, last, rfl, hspace⟩ := h.begins
  rw [attach_of_ne_nil hne, next, hL text c last hspace, next, Option.map_map, Option.map_map]
  congr 1
  funext pair
  exact congrArg (Prod.mk pair.1) (h.skipLayout_append pair.2)

theorem next_attach_of_next (hL : EndsAtSpace L) (h : Separates joint)
    (hnext : L.next text = some (token, rest)) :
    L.next (attach joint text) = some (token, attach joint rest) := by
  have hne : text ≠ [] := by
    rintro rfl
    rw [next_nil] at hnext
    contradiction
  rw [next_attach hL h hne, hnext]
  rfl

/-- The same tokens are read with the joint there. -/
theorem Reads.attach (hL : EndsAtSpace L) (h : Separates joint) (hreads : L.Reads text tokens rest) :
    L.Reads (attach joint text) tokens (attach joint rest) := by
  induction tokens generalizing text with
  | nil => exact congrArg (Backtrack.attach joint) (reads_nil.mp hreads)
  | cons token tokens ih =>
    obtain ⟨mid, hnext, hmid⟩ := hreads
    exact ⟨_, next_attach_of_next hL h hnext, ih hmid⟩

/-- With a joint behind a text of these tokens, the tokens of the joint come next. -/
theorem reads_append_of_tokens? (hL : EndsAtSpace L) (h : Separates joint)
    (hlex : L.tokens? text = some tokens) :
    L.Reads (skipLayout (text ++ joint)) tokens (skipLayout joint) := by
  rw [h.skipLayout_append]
  exact (tokens?_eq_some_iff.mp hlex).attach hL h

end Lexicon

/-! ## The lexicons of both grammars -/

/-- What is read of a text up to a place in front of whitespace is read of the text alone. -/
theorem exists_append_of_append_eq {front rest last : Text} {c : Char}
    (h : text ++ c :: last = front ++ rest) (hc : c ∉ front) :
    ∃ after, text = front ++ after ∧ rest = after ++ c :: last := by
  rcases List.append_eq_append_iff.mp h with ⟨mid, hfront, hlast⟩ | ⟨mid, htext, hrest⟩
  · cases mid with
    | nil => exact ⟨[], by rw [hfront, List.append_nil, List.append_nil], hlast.symm⟩
    | cons d others =>
      have hd : c = d := (List.cons.inj hlast).1
      rw [hfront, hd] at hc
      exact absurd (List.mem_append_right text List.mem_cons_self) hc
  · exact ⟨mid, htext, hrest⟩

section Runs

variable {accepts : Char → Bool} {c : Char}

theorem takeWhile_append_of_neg (h : ¬ accepts c) (text rest : Text) :
    (text ++ c :: rest).takeWhile accepts = text.takeWhile accepts := by
  induction text with
  | nil => exact List.takeWhile_cons_of_neg h
  | cons d text ih =>
    by_cases hd : accepts d
    · rw [List.cons_append, List.takeWhile_cons_of_pos hd, List.takeWhile_cons_of_pos hd, ih]
    · rw [List.cons_append, List.takeWhile_cons_of_neg hd, List.takeWhile_cons_of_neg hd]

theorem dropWhile_append_of_neg (h : ¬ accepts c) (text rest : Text) :
    (text ++ c :: rest).dropWhile accepts = text.dropWhile accepts ++ c :: rest := by
  induction text with
  | nil => exact List.dropWhile_cons_of_neg h
  | cons d text ih =>
    by_cases hd : accepts d
    · rw [List.cons_append, List.dropWhile_cons_of_pos hd, List.dropWhile_cons_of_pos hd, ih]
    · rw [List.cons_append, List.dropWhile_cons_of_neg hd, List.dropWhile_cons_of_neg hd,
        List.cons_append]

end Runs

theorem Arith.endsAtSpace_lexicon : Arith.lexicon.EndsAtSpace := by
  intro text c rest hspace
  have hdecimal : ¬ isDecimal c := by
    rcases isSpace_iff.mp hspace with rfl | rfl | rfl <;> decide
  have hmark : Arith.mark? c = none := by
    rcases isSpace_iff.mp hspace with rfl | rfl | rfl <;> rfl
  cases text with
  | nil => simp [Arith.lexicon, Arith.readToken, hdecimal, hmark]
  | cons d after =>
    by_cases hd : isDecimal d
    · simp only [Arith.lexicon, List.cons_append, Arith.readToken, if_pos hd, Option.map_some,
        takeWhile_append_of_neg hdecimal, dropWhile_append_of_neg hdecimal]
    · simp only [Arith.lexicon, List.cons_append, Arith.readToken, if_neg hd, Option.map_map,
        Function.comp_def]

namespace Lambda

/-- No token has whitespace in it. -/
theorem Token.not_mem_spelling {token : Token} {after : Text} (h : token.Delimited after) {c : Char}
    (hspace : isSpace c) : c ∉ token.spelling := by
  have hword := not_isAlphanumeric_of_isSpace hspace
  cases token with
  | word name =>
    intro hmem
    have hc := all_isAlphanumeric_of_isWord h.1 c hmem
    rw [hword] at hc
    contradiction
  | _ => rcases isSpace_iff.mp hspace with rfl | rfl | rfl <;> decide

theorem Token.delimited_append_iff {token : Token} {after rest : Text} {c : Char}
    (hspace : isSpace c) : token.Delimited (after ++ c :: rest) ↔ token.Delimited after := by
  have hends : endsWord (after ++ c :: rest) = endsWord after := by
    cases after with
    | nil => simp [endsWord, not_isAlphanumeric_of_isSpace hspace]
    | cons d after => rfl
  cases token with
  | word name => simp only [Token.Delimited, hends]
  | _ => exact Iff.rfl

theorem endsAtSpace_lexicon : lexicon.EndsAtSpace := by
  intro text c rest hspace
  apply Option.ext
  rintro ⟨token, last⟩
  rw [Option.map_eq_some_iff]
  change readToken (text ++ c :: rest) = some (token, last) ↔ _
  constructor
  · intro h
    obtain ⟨htext, hdelimited⟩ := readToken_eq_some_iff.mp h
    have hfree := Token.not_mem_spelling hdelimited hspace
    obtain ⟨after, rfl, rfl⟩ := exists_append_of_append_eq htext hfree
    have hafter := (Token.delimited_append_iff hspace).mp hdelimited
    exact ⟨(token, after), readToken_eq_some_iff.mpr ⟨rfl, hafter⟩, rfl⟩
  · rintro ⟨⟨first, after⟩, hread, hsame⟩
    cases hsame
    obtain ⟨rfl, hdelimited⟩ := readToken_eq_some_iff.mp hread
    have hlast : token.Delimited (after ++ c :: rest) :=
      (Token.delimited_append_iff hspace).mpr hdelimited
    exact readToken_eq_some_iff.mpr ⟨List.append_assoc _ _ _, hlast⟩

end Lambda

end Backtrack
