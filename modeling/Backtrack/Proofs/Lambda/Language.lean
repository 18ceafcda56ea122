import Backtrack.Lambda.Grammar
import Backtrack.Proofs.CharacterRun
import Backtrack.Proofs.Lexicon

/-!
# The language of lambda terms

The tokens of the lambda grammar and the grammar over them, which is ambiguous: it does not say how
far the body of an abstraction or of a definition reaches.  The head of a definition is the word
`let` and a name, or both in a single word.

The main statement on tokens is that a token is read where its spelling stands and, if it is a word,
ends there.
-/

namespace Backtrack.Lambda

open Alphabet Backtrack.Parser

/-- What a text of the lambda grammar consists of. -/
inductive Token where
  | backslash
  | arrow
  | equals
  | openParen
  | closeParen
  | word (text : Text)
  deriving DecidableEq, Repr

/-- The characters of a token. -/
def Token.spelling : Token → Text
  | .backslash => "\\".toList
  | .arrow => "->".toList
  | .equals => "=".toList
  | .openParen => "(".toList
  | .closeParen => ")".toList
  | .word text => text

/-- A lower-case letter and any letters and digits after it. -/
def isWord : Text → Bool
  | [] => false
  | c :: rest => isLowercase c && rest.all isAlphanumeric

/-- A word that is no keyword. -/
def isName (text : Text) : Bool := isWord text && !keywords.contains text

theorem isWord_iff {text : Text} : isWord text ↔
    ∃ c rest, text = c :: rest ∧ c.isLower ∧ ∀ d ∈ rest, d.isAlphanum := by
  cases text with
  | nil => simp [isWord]
  | cons c rest =>
    rw [isWord, Bool.and_eq_true, List.all_eq_true, isLowercase_eq_isLower,
      isAlphanumeric_eq_isAlphanum]
    constructor
    · rintro ⟨hc, hrest⟩
      exact ⟨c, rest, rfl, hc, hrest⟩
    · rintro ⟨_, _, hsame, hc, hrest⟩
      cases hsame
      exact ⟨hc, hrest⟩

/-- The words `let` and `in` are not names. -/
theorem isName_iff {text : Text} : isName text ↔ isWord text ∧ text ≠ "let".toList ∧
    text ≠ "in".toList := by
  simp [isName, keywords, and_comm]

/-- Reads a token that is no word. -/
def readMark : Text → Option (Token × Text)
  | '\\' :: rest => some (.backslash, rest)
  | '-' :: '>' :: rest => some (.arrow, rest)
  | '=' :: rest => some (.equals, rest)
  | '(' :: rest => some (.openParen, rest)
  | ')' :: rest => some (.closeParen, rest)
  | _ => none

/-- Reads a word that is as long as possible. -/
def readWord : Text → Option (Text × Text)
  | [] => none
  | c :: rest =>
    if isLowercase c then some (c :: rest.takeWhile isAlphanumeric, rest.dropWhile isAlphanumeric)
    else none

def readToken (text : Text) : Option (Token × Text) :=
  (readMark text).or ((readWord text).map fun (name, rest) ↦ (.word name, rest))

/-- Whether a word ends in front of this text. -/
def endsWord : Text → Bool
  | [] => true
  | c :: _ => !isAlphanumeric c

/-- The token is well formed and does not go on into what is behind it. -/
def Token.Delimited : Token → Text → Prop
  | .word text, rest => isWord text ∧ endsWord rest
  | _, _ => True

variable {text rest name : Text} {token : Token}

/-! ## Reading words -/

theorem isAlphanumeric_of_isLowercase {c : Char} (h : isLowercase c) : isAlphanumeric c := by
  rw [isAlphanumeric_eq, isAlphabetic_eq, h, Bool.or_true, Bool.or_true]

theorem all_isAlphanumeric_of_isWord (h : isWord text) : ∀ c ∈ text, isAlphanumeric c := by
  cases text with
  | nil => contradiction
  | cons c rest =>
    simp only [isWord, Bool.and_eq_true, List.all_eq_true] at h
    intro d hd
    rcases List.mem_cons.mp hd with rfl | hd
    · exact isAlphanumeric_of_isLowercase h.1
    · exact h.2 d hd

theorem takeWhile_of_endsWord (h : endsWord text) : text.takeWhile isAlphanumeric = [] := by
  cases text with
  | nil => rfl
  | cons c rest =>
    simp only [endsWord, Bool.not_eq_true'] at h
    rw [List.takeWhile_cons_of_neg (by simp [h])]

theorem dropWhile_of_endsWord (h : endsWord text) : text.dropWhile isAlphanumeric = text := by
  cases text with
  | nil => rfl
  | cons c rest =>
    simp only [endsWord, Bool.not_eq_true'] at h
    rw [List.dropWhile_cons_of_neg (by simp [h])]

theorem endsWord_dropWhile (text : Text) : endsWord (text.dropWhile isAlphanumeric) := by
  induction text with
  | nil => rfl
  | cons c rest ih =>
    by_cases h : isAlphanumeric c
    · rw [List.dropWhile_cons_of_pos h]
      exact ih
    · rw [List.dropWhile_cons_of_neg h]
      simpa [endsWord] using h

/-- Of a word and what is behind it, the word is read with the letters that go on behind it. -/
theorem readWord_append (h : isWord name) (rest : Text) :
    readWord (name ++ rest) =
      some (name ++ rest.takeWhile isAlphanumeric, rest.dropWhile isAlphanumeric) := by
  have hall := all_isAlphanumeric_of_isWord h
  cases name with
  | nil => contradiction
  | cons c body =>
    simp only [isWord, Bool.and_eq_true] at h
    have hbody : ∀ d ∈ body, isAlphanumeric d := fun d hd ↦ hall d (List.mem_cons_of_mem c hd)
    simp only [readWord, List.cons_append, if_pos h.1]
    rw [List.takeWhile_append_of_pos hbody, List.dropWhile_append_of_pos hbody]

theorem readWord_eq_some_iff :
    readWord text = some (name, rest) ↔ text = name ++ rest ∧ isWord name ∧ endsWord rest := by
  constructor
  · intro h
    cases text with
    | nil => contradiction
    | cons c body =>
      by_cases hc : isLowercase c
      · simp only [readWord, if_pos hc, Option.some.injEq, Prod.mk.injEq] at h
        obtain ⟨rfl, rfl⟩ := h
        refine ⟨?_, ?_, endsWord_dropWhile body⟩
        · rw [List.cons_append, List.takeWhile_append_dropWhile]
        · rw [isWord, hc, Bool.true_and, List.all_takeWhile]
      · simp only [readWord, if_neg hc] at h
        contradiction
  · rintro ⟨rfl, hname, hrest⟩
    rw [readWord_append hname, takeWhile_of_endsWord hrest, dropWhile_of_endsWord hrest,
      List.append_nil]

/-! ## Reading tokens -/

theorem readMark_eq_some_iff :
    readMark text = some (token, rest) ↔ text = token.spelling ++ rest ∧ ∀ name, token ≠ .word name := by
  constructor
  · intro h
    unfold readMark at h
    split at h <;> cases h <;> simp [Token.spelling]
  · rintro ⟨rfl, hword⟩
    cases token with
    | word name => exact absurd rfl (hword name)
    | _ => rfl

theorem readMark_of_isWord (h : isWord name) (rest : Text) : readMark (name ++ rest) = none := by
  cases name with
  | nil => contradiction
  | cons c body =>
    simp only [isWord, Bool.and_eq_true] at h
    cases hmark : readMark (c :: body ++ rest) with
    | none => rfl
    | some pair =>
      obtain ⟨token, after⟩ := pair
      obtain ⟨heq, hword⟩ := readMark_eq_some_iff.mp hmark
      cases token with
      | word name => exact absurd rfl (hword name)
      | _ =>
        have hc := (List.cons.inj heq).1
        rw [hc] at h
        exact absurd h.1 (by decide)

theorem readToken_eq_some_iff :
    readToken text = some (token, rest) ↔
      text = token.spelling ++ rest ∧ token.Delimited rest := by
  constructor
  · intro h
    unfold readToken at h
    rcases Option.or_eq_some_iff.mp h with hmark | ⟨-, hword⟩
    · obtain ⟨htext, hne⟩ := readMark_eq_some_iff.mp hmark
      refine ⟨htext, ?_⟩
      cases token with
      | word name => exact absurd rfl (hne name)
      | _ => trivial
    · obtain ⟨⟨name, after⟩, hread, hsame⟩ := Option.map_eq_some_iff.mp hword
      cases hsame
      exact readWord_eq_some_iff.mp hread
  · rintro ⟨htext, hdelimited⟩
    unfold readToken
    cases token with
    | word name =>
      have hread := readWord_eq_some_iff.mpr ⟨htext, hdelimited⟩
      rw [htext] at hread ⊢
      simp only [Token.spelling] at hread ⊢
      rw [readMark_of_isWord hdelimited.1, hread]
      rfl
    | _ =>
      rw [readMark_eq_some_iff.mpr ⟨htext, by simp⟩]
      rfl

theorem length_of_readToken (h : readToken text = some (token, rest)) :
    rest.length < text.length := by
  obtain ⟨rfl, hdelimited⟩ := readToken_eq_some_iff.mp h
  have hne : token.spelling ≠ [] := by
    intro hnil
    cases token with
    | word name =>
      simp only [Token.spelling] at hnil
      rw [hnil] at hdelimited
      exact absurd hdelimited.1 (by decide)
    | _ => contradiction
  rw [List.length_append]
  exact Nat.lt_add_of_pos_left (List.length_pos_iff.mpr hne)

def lexicon : Lexicon Token := ⟨readToken, length_of_readToken⟩

theorem next_eq_some_iff :
    lexicon.next text = some (token, rest) ↔
      ∃ after, text = token.spelling ++ after ∧ token.Delimited after ∧ skipLayout after = rest := by
  rw [Lexicon.next_eq_some_iff]
  constructor
  · rintro ⟨after, hread, hskip⟩
    obtain ⟨htext, hdelimited⟩ := readToken_eq_some_iff.mp hread
    exact ⟨after, htext, hdelimited, hskip⟩
  · rintro ⟨after, htext, hdelimited, hskip⟩
    exact ⟨after, readToken_eq_some_iff.mpr ⟨htext, hdelimited⟩, hskip⟩

theorem next_of_isWord (h : isWord name) (rest : Text) :
    lexicon.next (name ++ rest) =
      some (.word (name ++ rest.takeWhile isAlphanumeric),
        skipLayout (rest.dropWhile isAlphanumeric)) := by
  apply Lexicon.next_of_read
  simp only [lexicon, readToken, readMark_of_isWord h, readWord_append h, Option.map_some,
    Option.none_or]

/-! ## The grammar -/

/-- The head of a definition of a name. -/
inductive LetHead : List Token → Text → Prop
  | apart {name : Text} (hname : isName name) :
    LetHead [.word "let".toList, .word name] name
  | joined {name : Text} (hname : isName name) :
    LetHead [.word ("let".toList ++ name)] name

/-- What a phrase is. -/
inductive Kind where
  | atom
  | application
  deriving DecidableEq, Repr

/-- The phrases of each kind, each with one of its terms. -/
inductive Derives : Kind → List Token → Term → Prop
  | var {name : Text} (hname : isName name) : Derives .atom [.word name] (.var name)
  | paren {tokens : List Token} {term : Term} (inner : Derives .application tokens term) :
    Derives .atom (.openParen :: (tokens ++ [.closeParen])) term
  | lam {name : Text} (hname : isName name) {tokens : List Token} {body : Term}
    (hbody : Derives .application tokens body) :
    Derives .atom (.backslash :: .word name :: .arrow :: tokens) (.lam name body)
  | letIn {name : Text} {head ts us : List Token} (hhead : LetHead head name) {value body : Term}
    (hvalue : Derives .application ts value) (hbody : Derives .application us body) :
    Derives .atom (head ++ .equals :: (ts ++ .word "in".toList :: us)) (.letIn name value body)
  | atom {tokens : List Token} {term : Term} (atom : Derives .atom tokens term) :
    Derives .application tokens term
  | app {ts us : List Token} {fn arg : Term} (hfn : Derives .application ts fn)
    (harg : Derives .atom us arg) : Derives .application (ts ++ us) (.app fn arg)

end Backtrack.Lambda
