import Backtrack.Proofs.Identifier
import Backtrack.Proofs.Yields

/-!
# The token parsers of the lambda grammar

Marks and names are read as the lexicon reads them.  `symbol "let"` and `symbol "in"` do not look for
the end of a word: the first may leave the rest of a word as a name, and the second stands for the
word `in` only where no name can be read.
-/

namespace Backtrack.Lambda

open Alphabet Backtrack.Parser

variable {text rest name inp mid : Text} {token : Token}

/-- The name that a word is. -/
def Token.name? : Token → Option Text
  | .word text => if isName text then some text else none
  | _ => none

theorem Token.name?_eq_some_iff : token.name? = some name ↔ token = .word name ∧ isName name := by
  constructor
  · intro h
    cases token with
    | word text =>
      by_cases htext : isName text
      · simp only [Token.name?, if_pos htext, Option.some.injEq] at h
        rw [← h]
        exact ⟨rfl, htext⟩
      · simp only [Token.name?, if_neg htext] at h
        contradiction
    | _ => contradiction
  · rintro ⟨rfl, hname⟩
    exact if_pos hname

/-- The parser of a mark reads its token and no other. -/
theorem symbol_eq_exactly (token : Token) (h : ∀ rest, token.Delimited rest) :
    symbol token.spelling = lexicon.exactly token token.spelling := by
  apply Lexicon.symbol_eq_exactly
  · intro rest
    exact readToken_eq_some_iff.mpr ⟨rfl, h rest⟩
  · intro text rest hread
    exact (readToken_eq_some_iff.mp hread).1

theorem backslash_eq_exactly : symbol "\\".toList = lexicon.exactly .backslash "\\".toList :=
  symbol_eq_exactly .backslash fun _ ↦ trivial

theorem arrow_eq_exactly : symbol "->".toList = lexicon.exactly .arrow "->".toList :=
  symbol_eq_exactly .arrow fun _ ↦ trivial

theorem equals_eq_exactly : symbol "=".toList = lexicon.exactly .equals "=".toList :=
  symbol_eq_exactly .equals fun _ ↦ trivial

theorem openParen_eq_exactly : symbol "(".toList = lexicon.exactly .openParen "(".toList :=
  symbol_eq_exactly .openParen fun _ ↦ trivial

theorem closeParen_eq_exactly : symbol ")".toList = lexicon.exactly .closeParen ")".toList :=
  symbol_eq_exactly .closeParen fun _ ↦ trivial

theorem symbol_append (front rest : Text) :
    symbol front (front ++ rest) = .ok [(front, skipLayout rest)] := by
  rw [symbol_apply, if_pos (List.isPrefixOf_iff_prefix.mpr (List.prefix_append front rest)),
    List.drop_left]

/-- A token at the front of a text is read by the parser of its spelling. -/
theorem symbol_of_next (h : lexicon.next text = some (token, rest)) :
    symbol token.spelling text = .ok [(token.spelling, rest)] := by
  obtain ⟨after, rfl, -, rfl⟩ := next_eq_some_iff.mp h
  exact symbol_append token.spelling after

theorem variableName_eq_accept : variableName = lexicon.accept Token.name? := by
  funext inp
  rw [variableName, identifier_apply]
  cases hread : readWord inp with
  | none =>
    rw [Lexicon.accept_eq_nil]
    intro token rest hnext
    obtain ⟨after, htext, hdelimited, -⟩ := next_eq_some_iff.mp hnext
    cases token with
    | word name =>
      rw [readWord_eq_some_iff.mpr ⟨htext, hdelimited⟩] at hread
      contradiction
    | _ => rfl
  | some pair =>
    obtain ⟨name, rest⟩ := pair
    obtain ⟨htext, hword, hends⟩ := readWord_eq_some_iff.mp hread
    have hnext : lexicon.next inp = some (.word name, skipLayout rest) :=
      next_eq_some_iff.mpr ⟨rest, htext, ⟨hword, hends⟩, rfl⟩
    by_cases hkeyword : name ∈ keywords
    · have hvalue : Token.name? (.word name) = none := by simp [Token.name?, isName, hkeyword]
      rw [Lexicon.accept_eq_nil]
      · simp only [if_pos hkeyword]
      · intro token after hafter
        rw [(Lexicon.next_unique hnext hafter).1, hvalue]
    · have hvalue : Token.name? (.word name) = some name := by
        simp [Token.name?, isName, hword, hkeyword]
      rw [Lexicon.accept_of_next hnext hvalue]
      simp only [if_neg hkeyword]

theorem var_of_next (hname : isName name) (hnext : lexicon.next inp = some (.word name, rest)) :
    var inp = .ok [(.var name, rest)] := by
  unfold var
  rw [variableName_eq_accept]
  exact map_of_single (Lexicon.accept_of_next hnext (if_pos hname)) Term.var

/-! ## Keywords -/

theorem not_isAlphanumeric_of_isSpace {c : Char} (h : isSpace c) : isAlphanumeric c = false := by
  rcases isSpace_iff.mp h with rfl | rfl | rfl <;> decide

theorem endsWord_of_startsWithLayout (h : startsWithLayout text) : endsWord text := by
  cases text with
  | nil => rfl
  | cons c rest =>
    simp only [startsWithLayout, Bool.or_eq_true] at h
    rcases h with hspace | hcomment
    · simp only [endsWord, not_isAlphanumeric_of_isSpace hspace, Bool.not_false]
    · obtain ⟨body, hbody⟩ := List.isPrefixOf_iff_prefix.mp hcomment
      have hdash : isAlphanumeric '-' = false := by decide
      rw [← (List.cons.inj hbody).1]
      simp only [endsWord]
      exact congrArg not hdash

theorem skipLayout_of_not_endsWord (h : ¬ endsWord text) : skipLayout text = text :=
  skipLayout_of_not_startsWithLayout fun hlayout ↦ h (endsWord_of_startsWithLayout hlayout)

theorem not_endsWord_of_isWord (h : isWord name) (rest : Text) : ¬ endsWord (name ++ rest) := by
  have hall := all_isAlphanumeric_of_isWord h
  cases name with
  | nil => contradiction
  | cons c body => simp [endsWord, hall c List.mem_cons_self]

theorem isWord_of_isName (h : isName name) : isWord name := (isName_iff.mp h).1

theorem yields_variableName_iff :
    Yields variableName inp (name, rest) ↔
      lexicon.next inp = some (.word name, rest) ∧ isName name := by
  rw [variableName_eq_accept]
  constructor
  · intro h
    rcases Lexicon.accept_cases lexicon Token.name? inp with hnil | ⟨token, x, after, hnext, hx, hrun⟩
    · exact absurd h (not_yields_of_nil hnil _)
    · cases eq_of_yields_single hrun h
      obtain ⟨rfl, hname⟩ := Token.name?_eq_some_iff.mp hx
      exact ⟨hnext, hname⟩
  · rintro ⟨hnext, hname⟩
    exact yields_of_single (Lexicon.accept_of_next hnext (if_pos hname))

theorem append_of_yields_symbol {front value : Text} (h : Yields (symbol front) inp (value, rest)) :
    ∃ after, inp = front ++ after ∧ skipLayout after = rest := by
  by_cases hprefix : front.isPrefixOf inp
  · obtain ⟨after, rfl⟩ := List.isPrefixOf_iff_prefix.mp hprefix
    cases eq_of_yields_single (symbol_append front after) h
    exact ⟨after, rfl, rfl⟩
  · have hnil : symbol front inp = .ok [] := by rw [symbol_apply, if_neg hprefix]
    exact absurd h (not_yields_of_nil hnil _)

theorem isWord_append {front : Text} (hfront : isWord front) (hall : text.all isAlphanumeric) :
    isWord (front ++ text) := by
  cases front with
  | nil => contradiction
  | cons c body =>
    simp only [isWord, Bool.and_eq_true] at hfront
    simp only [List.cons_append, isWord, List.all_append, Bool.and_eq_true]
    exact ⟨hfront.1, hfront.2, hall⟩

/-- Where `let` and then a name are read stands the head of a definition. -/
theorem exists_letHead {value : Text} (hlet : Yields (symbol "let".toList) inp (value, mid))
    (hvariable : Yields variableName mid (name, rest)) :
    ∃ tokens, LetHead tokens name ∧ lexicon.Reads inp tokens rest := by
  obtain ⟨after, rfl, rfl⟩ := append_of_yields_symbol hlet
  obtain ⟨hnext, hname⟩ := yields_variableName_iff.mp hvariable
  have hword : isWord "let".toList := by decide
  -- Either `let` is a word by itself, or the name is the rest of the word that it starts.
  by_cases hends : endsWord after
  · have hfirst : lexicon.next ("let".toList ++ after) =
        some (.word "let".toList, skipLayout after) :=
      next_eq_some_iff.mpr ⟨after, rfl, ⟨hword, hends⟩, rfl⟩
    exact ⟨_, .apart hname, _, hfirst, Lexicon.reads_singleton.mpr hnext⟩
  · rw [skipLayout_of_not_endsWord hends] at hnext
    obtain ⟨last, rfl, ⟨hfollow, hlast⟩, rfl⟩ := next_eq_some_iff.mp hnext
    have hall := List.all_eq_true.mpr (all_isAlphanumeric_of_isWord hfollow)
    have hboth := isWord_append hword hall
    refine ⟨_, .joined hname, Lexicon.reads_singleton.mpr ?_⟩
    exact next_eq_some_iff.mpr ⟨last, (List.append_assoc _ _ _).symm, ⟨hboth, hlast⟩, rfl⟩

/-- The head of a definition is read as `let` and then a name. -/
theorem letHead_of_reads {tokens : List Token} (h : LetHead tokens name)
    (hreads : lexicon.Reads inp tokens rest) :
    ∃ mid, symbol "let".toList inp = .ok [("let".toList, mid)] ∧
      variableName mid = .ok [(name, rest)] := by
  rw [variableName_eq_accept]
  cases h with
  | apart hname =>
    obtain ⟨mid, hlet, hlast⟩ := hreads
    have hnext := Lexicon.reads_singleton.mp hlast
    exact ⟨mid, symbol_of_next hlet, Lexicon.accept_of_next hnext (if_pos hname)⟩
  | joined hname =>
    obtain ⟨after, rfl, hafter, rfl⟩ := next_eq_some_iff.mp (Lexicon.reads_singleton.mp hreads)
    have hword := isWord_of_isName hname
    have hnext : lexicon.next (name ++ after) = some (.word name, skipLayout after) :=
      next_eq_some_iff.mpr ⟨after, rfl, ⟨hword, hafter.2⟩, rfl⟩
    refine ⟨name ++ after, ?_, Lexicon.accept_of_next hnext (if_pos hname)⟩
    have hlet := symbol_append "let".toList (name ++ after)
    rw [skipLayout_of_not_endsWord (not_endsWord_of_isWord hword after), ← List.append_assoc] at hlet
    exact hlet

/-- In front of a name no more is read as the head of a definition than the name. -/
theorem let_cases_of_isName (hname : isName name)
    (hnext : lexicon.next inp = some (.word name, rest)) :
    symbol "let".toList inp = .ok [] ∨
    ∃ mid, symbol "let".toList inp = .ok [("let".toList, mid)] ∧
      (variableName mid = .ok [] ∨ ∃ other, variableName mid = .ok [(other, rest)]) := by
  by_cases hprefix : "let".toList.isPrefixOf inp
  · obtain ⟨after, rfl⟩ := List.isPrefixOf_iff_prefix.mp hprefix
    have hword : isWord "let".toList := by decide
    rw [next_of_isWord hword, Option.some.injEq, Prod.mk.injEq, Token.word.injEq] at hnext
    obtain ⟨hsplit, hrest⟩ := hnext
    -- The name is longer than `let`, so no layout is skipped in the middle of it.
    have hmore : ¬ endsWord after := by
      intro hends
      rw [takeWhile_of_endsWord hends, List.append_nil] at hsplit
      rw [← hsplit] at hname
      exact absurd hname (by decide)
    have hlet := symbol_append "let".toList after
    rw [skipLayout_of_not_endsWord hmore] at hlet
    refine .inr ⟨after, hlet, ?_⟩
    rw [variableName_eq_accept]
    rcases Lexicon.accept_cases lexicon Token.name? after with
      hnil | ⟨token, other, last, hlast, hother, hrun⟩
    · exact .inl hnil
    · obtain ⟨rfl, -⟩ := Token.name?_eq_some_iff.mp hother
      obtain ⟨behind, rfl, ⟨hfollow, hbehind⟩, rfl⟩ := next_eq_some_iff.mp hlast
      have hall := all_isAlphanumeric_of_isWord hfollow
      rw [Token.spelling, List.dropWhile_append_of_pos hall, dropWhile_of_endsWord hbehind] at hrest
      exact .inr ⟨other, hrest ▸ hrun⟩
  · exact .inl (by rw [symbol_apply, if_neg hprefix])

/-- `let` is read only where a word stands that it is the front of. -/
theorem let_eq_nil (h : ∀ token rest, lexicon.next inp = some (token, rest) →
    ¬ "let".toList <+: token.spelling) : symbol "let".toList inp = .ok [] := by
  by_cases hprefix : "let".toList.isPrefixOf inp
  · obtain ⟨after, rfl⟩ := List.isPrefixOf_iff_prefix.mp hprefix
    have hnext := next_of_isWord (by decide : isWord "let".toList) after
    exact absurd (List.prefix_append _ _) (h _ _ hnext)
  · rw [symbol_apply, if_neg hprefix]

/-- Where `in` is read and no name can be, stands the word `in`. -/
theorem next_of_yields_in {value : Text} (hin : Yields (symbol "in".toList) inp (value, rest))
    (hname : ∀ name after, lexicon.next inp = some (.word name, after) → ¬ isName name) :
    lexicon.next inp = some (.word "in".toList, rest) := by
  obtain ⟨after, rfl, rfl⟩ := append_of_yields_symbol hin
  have hword : isWord "in".toList := by decide
  by_cases hends : endsWord after
  · exact next_eq_some_iff.mpr ⟨after, rfl, ⟨hword, hends⟩, rfl⟩
  · -- A word that `in` is the front of would be a name.
    refine absurd ?_ (hname _ _ (next_of_isWord hword after))
    cases after with
    | nil => exact absurd rfl hends
    | cons c last =>
      have hc : isAlphanumeric c := by simpa [endsWord] using hends
      have hlonger := isWord_append hword (List.all_takeWhile (l := c :: last))
      rw [List.takeWhile_cons_of_pos hc] at hlonger ⊢
      exact isName_iff.mpr ⟨hlonger, by simp, by simp⟩

end Backtrack.Lambda
