import Backtrack.Proofs.Lambda.Words
import Backtrack.Proofs.MaximalRun
import Backtrack.Proofs.Verdict

/-!
# Lists of words with commas between them

A text lists words if it is the words with a comma between each two and any whitespace around words
and commas; whitespace alone lists no words.  The main statement is that such a text is read as the
list of its words and in no other way.

The parser of lists finds a list for each place where it could stop, and the empty list besides.  What
it finds behind the first word is seen by induction on the other words: each way to stop leaves a
comma and the words behind it, and only the last one leaves nothing.
-/

namespace Backtrack

open Alphabet
open Lambda (isWord endsWord)

/-- A word with whitespace around it. -/
structure PaddedWord where
  before : Text
  word : Text
  after : Text
  before_isSpace : ∀ c ∈ before, isSpace c
  word_isWord : isWord word
  after_isSpace : ∀ c ∈ after, isSpace c

namespace PaddedWord

def text (w : PaddedWord) : Text := w.before ++ (w.word ++ w.after)

/-- What stands behind the first word of a list: the others, each with a comma in front. -/
def behind (others : List PaddedWord) : Text := others.flatMap fun w ↦ ',' :: w.text

@[simp]
theorem behind_nil : behind [] = [] := rfl

theorem behind_cons (w : PaddedWord) (others : List PaddedWord) :
    behind (w :: others) = ',' :: (w.text ++ behind others) := by
  simp [behind]

end PaddedWord

/-- The text is these words with commas between them and whitespace around words and commas. -/
inductive Lists : Text → List Text → Prop
  | empty {text : Text} (h : ∀ c ∈ text, isSpace c) : Lists text []
  | words (first : PaddedWord) (others : List PaddedWord) :
    Lists ([','].intercalate ((first :: others).map PaddedWord.text))
      ((first :: others).map PaddedWord.word)

namespace PaddedWord

variable (w : PaddedWord) (others : List PaddedWord)

theorem word_ne_nil : w.word ≠ [] := by
  have hword := w.word_isWord
  intro hnil
  rw [hnil] at hword
  contradiction

theorem intercalate_eq_append :
    [','].intercalate ((w :: others).map text) = w.text ++ behind others := by
  induction others generalizing w with
  | nil => simp
  | cons next others ih =>
    rw [List.map_cons, List.map_cons, List.intercalate_cons_cons, ← List.map_cons, ih next,
      behind_cons, List.append_assoc, List.singleton_append]

/-- The word starts behind the whitespace in front of it. -/
theorem skipLayout_text_append (rest : Text) :
    skipLayout (w.text ++ rest) = w.word ++ (w.after ++ rest) := by
  rw [text, List.append_assoc, (isLayout_of_isSpace w.before_isSpace).skipLayout_append,
    List.append_assoc, Lambda.skipLayout_of_not_endsWord (Lambda.not_endsWord_of_isWord w.word_isWord _)]

theorem skipLayout_after_append :
    skipLayout (w.after ++ behind others) = behind others := by
  rw [(isLayout_of_isSpace w.after_isSpace).skipLayout_append]
  apply skipLayout_of_not_startsWithLayout
  cases others with
  | nil => exact Bool.false_ne_true
  | cons next others =>
    have hcomma : isSpace ',' = false := by decide
    simp [behind_cons, startsWithLayout, commentStart, hcomma]

theorem endsWord_after_append : endsWord (w.after ++ behind others) := by
  have hafter := w.after_isSpace
  cases h : w.after with
  | nil =>
    cases others with
    | nil => rfl
    | cons next others =>
      have hcomma : isAlphanumeric ',' = false := by decide
      simp [behind_cons, endsWord, hcomma]
  | cons c rest =>
    rw [h] at hafter
    have hc := Lambda.not_isAlphanumeric_of_isSpace (hafter c List.mem_cons_self)
    simp [endsWord, hc]

end PaddedWord

namespace Parser

open PaddedWord

variable {keywords : List Text} {w : PaddedWord}

theorem identifier_paddedWord (h : w.word ∉ keywords) (others : List PaddedWord) :
    identifier keywords (w.word ++ (w.after ++ behind others)) =
      .ok [(w.word, behind others)] := by
  rw [identifier_append w.word_isWord h (w.endsWord_after_append others),
    w.skipLayout_after_append others]

/-- A comma and the word behind it. -/
def nextWord (keywords : List Text) : Parser Text :=
  bind (symbol ",".toList) fun _ ↦ identifier keywords

theorem nextWord_nil : nextWord keywords [] = .ok [] := rfl

theorem nextWord_behind (h : w.word ∉ keywords) (others : List PaddedWord) :
    nextWord keywords (behind (w :: others)) = .ok [(w.word, behind others)] := by
  have hcomma := Lambda.symbol_append ",".toList (w.text ++ behind others)
  rw [w.skipLayout_text_append] at hcomma
  rw [behind_cons, nextWord]
  exact (bind_of_single hcomma _).trans (identifier_paddedWord h others)

/-- Of all ways to go on behind the first word, one leaves nothing. -/
theorem repetitions_nextWord {others : List PaddedWord} (h : ∀ w ∈ others, w.word ∉ keywords) :
    ∃ found, repetitions (nextWord keywords) (behind others) = .ok found ∧
      completeValues found = [others.map PaddedWord.word] := by
  induction others with
  | nil => exact ⟨_, repetitions_of_nil nextWord_nil, rfl⟩
  | cons w others ih =>
    obtain ⟨hw, hothers⟩ := List.forall_mem_cons.mp h
    obtain ⟨found, hfound, hcomplete⟩ := ih hothers
    have shorter : (behind others).length < (behind (w :: others)).length := by
      rw [behind_cons, List.length_cons, List.length_append]
      omega
    refine ⟨_, repetitions_of_single (nextWord_behind hw others) shorter hfound, ?_⟩
    calc
      completeValues (found.map (readAfter [w.word]) ++ [([], behind (w :: others))]) =
          completeValues (found.map (readAfter [w.word])) := by
        rw [completeValues_append, behind_cons,
          completeValues_singleton_of_ne_nil (List.cons_ne_nil _ _), List.append_nil]
      _ = (completeValues found).map (w.word :: ·) := completeValues_map (w.word :: ·) found
      _ = [(w :: others).map PaddedWord.word] := by rw [hcomplete]; rfl

/-- The lists that start with a word of the text, and the empty one behind them. -/
theorem sepBy_of_single {α β : Type} {p : Parser α} {sep : Parser β} {inp rest : Text} {x : α}
    {found : Outcomes (List α)} (hp : p inp = .ok [(x, rest)])
    (hfound : repetitions (bind sep fun _ ↦ p) rest = .ok found) :
    sepBy p sep inp = .ok (found.map (fun (xs, last) ↦ (x :: xs, last)) ++ [([], inp)]) := by
  have hfirst : sepBy1 p sep inp = .ok (found.map fun (xs, last) ↦ (x :: xs, last)) :=
    bind_many_of_single hp (many_eq_iff.mpr hfound)
  rw [sepBy, anyOf_cons, anyOf_cons, hfirst]
  rfl

theorem sepBy_of_nil {α β : Type} {p : Parser α} {sep : Parser β} {inp : Text}
    (hp : p inp = .ok []) : sepBy p sep inp = .ok [([], inp)] := by
  rw [sepBy, anyOf_cons, anyOf_cons, sepBy1, bind_of_nil hp]
  rfl

/-- A list of words that are no keywords is read back from every text that lists them, and the text is
read completely in no other way. -/
theorem parseAll_words {text : Text} {words : List Text} (htext : Lists text words)
    (hwords : ∀ word ∈ words, word ∉ keywords) :
    parseAll (sepBy (identifier keywords) (symbol ",".toList)) text = .ok [words] := by
  rw [parseAll, parse_apply]
  cases htext with
  | empty h =>
    have hnone : identifier keywords [] = .ok [] := rfl
    rw [(isLayout_of_isSpace h).skipLayout_eq_nil, sepBy_of_nil hnone]
    rfl
  | words first others =>
    have hothers : ∀ w ∈ others, w.word ∉ keywords := fun w hw ↦
      hwords w.word (List.mem_map_of_mem (List.mem_cons_of_mem first hw))
    have hread := identifier_paddedWord (hwords first.word List.mem_cons_self) others
    obtain ⟨found, hfound, hcomplete⟩ := repetitions_nextWord hothers
    have hne : first.word ++ (first.after ++ behind others) ≠ [] :=
      List.append_ne_nil_of_left_ne_nil first.word_ne_nil _
    rw [intercalate_eq_append, skipLayout_text_append, sepBy_of_single hread hfound, ok_bind,
      completeValues_append, completeValues_map, hcomplete, completeValues_singleton_of_ne_nil hne]
    rfl

/-- Words that begin with keywords, with a tab and a newline around the comma. -/
theorem parseAll_words_keywords :
    Lists "letter\t,\n in1 ".toList ["letter".toList, "in1".toList] ∧
    parseAll (sepBy (identifier ["let".toList, "in".toList]) (symbol ",".toList))
      "letter\t,\n in1 ".toList = .ok [["letter".toList, "in1".toList]] := by
  let first : PaddedWord := ⟨[], "letter".toList, "\t".toList,
    List.all_eq_true.mp rfl, by decide, List.all_eq_true.mp (by decide)⟩
  let second : PaddedWord := ⟨"\n ".toList, "in1".toList, " ".toList,
    List.all_eq_true.mp (by decide), by decide, List.all_eq_true.mp (by decide)⟩
  have htext : Lists "letter\t,\n in1 ".toList ["letter".toList, "in1".toList] :=
    .words first [second]
  exact ⟨htext, parseAll_words htext (by decide)⟩

end Parser

end Backtrack
