import Backtrack.Proofs.Returns
import Mathlib.Data.List.FinRange

/-!
# Ways to cut a text into words

Repeating a choice between fixed words cuts a text into words.  The main statement is that the
outcomes that leave nothing are exactly the ways to make the text up of words that are not empty,
where a way is the sequence of the places that its words have in the list of words, each way once
and in lexicographic order.

`segmentations` lists these ways by a recursion of its own, which tries the words in their order.
-/

namespace Backtrack

/-- The words at these places. -/
def wordsAt (words : List Text) (indices : List (Fin words.length)) : List Text :=
  indices.map words.get

/-- The words at these places are not empty, and make up the text. -/
structure Segments (words : List Text) (text : Text) (indices : List (Fin words.length)) :
    Prop where
  ne_nil : ∀ i ∈ indices, words.get i ≠ []
  flatten_eq : (wordsAt words indices).flatten = text

theorem length_drop_lt {word text : Text} (hne : word ≠ []) (hstart : word <+: text) :
    (text.drop word.length).length < text.length := by
  have hword : 0 < word.length := List.length_pos_iff.mpr hne
  have hle : word.length ≤ text.length := hstart.length_le
  rw [List.length_drop]
  omega

/-- All ways to make up a text of the words, those that start with an earlier word first. -/
def segmentations (words : List Text) (text : Text) : List (List (Fin words.length)) :=
  if text = [] then [[]]
  else (List.finRange words.length).flatMap fun i ↦
    if _h : words.get i ≠ [] ∧ words.get i <+: text then
      (segmentations words (text.drop (words.get i).length)).map (i :: ·)
    else []
termination_by text.length
decreasing_by exact length_drop_lt _h.1 _h.2

variable {words : List Text} {text : Text}

@[simp]
theorem segmentations_nil (words : List Text) : segmentations words [] = [[]] := by
  rw [segmentations, if_pos rfl]

theorem nil_mem_segmentations : [] ∈ segmentations words text ↔ text = [] := by
  constructor
  · intro h
    by_contra hne
    rw [segmentations, if_neg hne] at h
    obtain ⟨i, -, hi⟩ := List.mem_flatMap.mp h
    obtain ⟨-, hi⟩ := List.mem_dite_nil_right.mp hi
    obtain ⟨indices, -, hsame⟩ := List.mem_map.mp hi
    contradiction
  · rintro rfl
    rw [segmentations_nil]
    exact List.mem_singleton_self []

theorem cons_mem_segmentations {i : Fin words.length} {indices : List (Fin words.length)} :
    i :: indices ∈ segmentations words text ↔
      (words.get i ≠ [] ∧ words.get i <+: text) ∧
        indices ∈ segmentations words (text.drop (words.get i).length) := by
  constructor
  · intro h
    rw [segmentations] at h
    split at h
    · simp at h
    · obtain ⟨j, -, hj⟩ := List.mem_flatMap.mp h
      obtain ⟨hword, hj⟩ := List.mem_dite_nil_right.mp hj
      obtain ⟨more, hmore, hsame⟩ := List.mem_map.mp hj
      cases hsame
      exact ⟨hword, hmore⟩
  · rintro ⟨hword, hmem⟩
    have hne : text ≠ [] := by
      rintro rfl
      exact hword.1 (List.prefix_nil.mp hword.2)
    rw [segmentations, if_neg hne]
    refine List.mem_flatMap.mpr ⟨i, List.mem_finRange i, ?_⟩
    rw [dif_pos hword]
    exact List.mem_map_of_mem hmem

theorem segments_nil : Segments words text [] ↔ text = [] := by
  constructor
  · intro h
    exact h.flatten_eq.symm
  · rintro rfl
    exact ⟨fun i hi ↦ absurd hi List.not_mem_nil, rfl⟩

theorem segments_cons {i : Fin words.length} {indices : List (Fin words.length)} :
    Segments words text (i :: indices) ↔
      (words.get i ≠ [] ∧ words.get i <+: text) ∧
        Segments words (text.drop (words.get i).length) indices := by
  constructor
  · rintro ⟨hne, rfl⟩
    obtain ⟨hhead, htail⟩ := List.forall_mem_cons.mp hne
    refine ⟨⟨hhead, List.prefix_append _ _⟩, htail, ?_⟩
    simp [wordsAt]
  · rintro ⟨⟨hhead, hstart⟩, htail, hflatten⟩
    refine ⟨List.forall_mem_cons.mpr ⟨hhead, htail⟩, ?_⟩
    obtain ⟨rest, rfl⟩ := hstart
    rw [List.drop_left] at hflatten
    simp [wordsAt, ← hflatten]

/-- A sequence of places is listed if and only if its words make up the text. -/
theorem mem_segmentations {indices : List (Fin words.length)} :
    indices ∈ segmentations words text ↔ Segments words text indices := by
  induction indices generalizing text with
  | nil => rw [nil_mem_segmentations, segments_nil]
  | cons i indices ih => rw [cons_mem_segmentations, segments_cons, ih]

example : segmentations [['a'], [], ['a', 'a']] ['a', 'a', 'a'] = [[0, 0, 0], [0, 2], [2, 0]] := by
  decide +kernel

/-- Ways that start with an earlier word come first, and so on behind the first word. -/
theorem pairwise_segmentations (words : List Text) (text : Text) :
    (segmentations words text).Pairwise (List.Lex (· < ·)) := by
  induction hlen : text.length using Nat.strongRecOn generalizing text with
  | ind n ih =>
    rw [segmentations]
    split
    · exact List.pairwise_singleton _ _
    · refine List.pairwise_flatMap.mpr ⟨fun i _ ↦ ?_, ?_⟩
      · split
        · next hword =>
          have hrest := ih _ (hlen ▸ length_drop_lt hword.1 hword.2) _ rfl
          exact List.pairwise_map.mpr (hrest.imp List.Lex.cons)
        · exact List.Pairwise.nil
      · apply (List.pairwise_lt_finRange words.length).imp
        intro i j hij indices hi others hj
        obtain ⟨-, hi⟩ := List.mem_dite_nil_right.mp hi
        obtain ⟨-, hj⟩ := List.mem_dite_nil_right.mp hj
        obtain ⟨more, -, rfl⟩ := List.mem_map.mp hi
        obtain ⟨rest, -, rfl⟩ := List.mem_map.mp hj
        exact List.Lex.rel hij

theorem nodup_segmentations (words : List Text) (text : Text) :
    (segmentations words text).Nodup := by
  apply (pairwise_segmentations words text).imp
  rintro indices _ hlt rfl
  exact List.lex_irrefl (fun i ↦ Nat.lt_irrefl i.val) indices hlt

namespace Parser

/-- The outcomes of a choice between fixed words. -/
def wordOutcomes (words : List Text) (inp : Text) : Outcomes Text :=
  words.flatMap fun word ↦ if word.isPrefixOf inp then [(word, inp.drop word.length)] else []

theorem string_apply (word inp : Text) : string word inp =
    .ok (if word.isPrefixOf inp then [(word, inp.drop word.length)] else []) := by
  unfold string
  split <;> rfl

theorem anyOf_string (words : List Text) (inp : Text) :
    anyOf (words.map string) inp = .ok (wordOutcomes words inp) := by
  induction words with
  | nil => rfl
  | cons word words ih =>
    rw [List.map_cons, anyOf_cons, string_apply, ih]
    rfl

/-- What a repetition finds that starts with this word. -/
theorem flatMap_wordOutcome (word text : Text) (next : Text → Outcomes (List Text)) :
    (if word.isPrefixOf text then [(word, text.drop word.length)] else []).flatMap
        (fun (value, rest) ↦
          if rest.length < text.length then (next rest).map (readAfter [value]) else []) =
      if word ≠ [] ∧ word <+: text then
        (next (text.drop word.length)).map (readAfter [word])
      else [] := by
  by_cases hstart : word <+: text
  · rw [if_pos (List.isPrefixOf_iff_prefix.mpr hstart), List.flatMap_singleton]
    by_cases hne : word = []
    · subst hne
      simp
    · rw [if_pos ⟨hne, hstart⟩]
      exact if_pos (length_drop_lt hne hstart)
  · rw [if_neg fun h ↦ hstart (List.isPrefixOf_iff_prefix.mp h), if_neg fun h ↦ hstart h.2]
    rfl

/-- A repetition starts with a word that is not empty, or stops. -/
theorem repetitionsOf_wordOutcomes (words : List Text) (text : Text) :
    repetitionsOf (wordOutcomes words) text =
      (words.flatMap fun word ↦
        if word ≠ [] ∧ word <+: text then
          (repetitionsOf (wordOutcomes words) (text.drop word.length)).map (readAfter [word])
        else []) ++ [([], text)] := by
  rw [repetitionsOf]
  nth_rewrite 1 [wordOutcomes]
  rw [List.flatMap_assoc]
  simp only [flatMap_wordOutcome]

theorem flatMap_get_finRange {β : Type} (words : List Text) (f : Text → List β) :
    ((List.finRange words.length).flatMap fun i ↦ f (words.get i)) = words.flatMap f := by
  rw [← List.flatMap_map, List.map_get_finRange]

theorem filter_repetitionsOf_wordOutcomes (words : List Text) (text : Text) :
    (repetitionsOf (wordOutcomes words) text).filter (fun outcome ↦ outcome.2.isEmpty) =
      (segmentations words text).map fun indices ↦ (wordsAt words indices, []) := by
  induction hlen : text.length using Nat.strongRecOn generalizing text with
  | ind n ih =>
    rw [repetitionsOf_wordOutcomes, ← flatMap_get_finRange, List.filter_append,
      List.filter_flatMap]
    by_cases hempty : text = []
    · subst hempty
      rw [segmentations_nil, List.flatMap_eq_nil_iff.mpr]
      · rfl
      intro i _
      rw [if_neg fun h ↦ h.1 (List.prefix_nil.mp h.2)]
      rfl
    · have hstop : ([([], text)] : Outcomes (List Text)).filter (fun outcome ↦ outcome.2.isEmpty) =
          [] := by
        simp [hempty]
      rw [segmentations, if_neg hempty, List.map_flatMap, hstop, List.append_nil]
      apply List.flatMap_congr
      intro i _
      by_cases hword : words.get i ≠ [] ∧ words.get i <+: text
      · have hrest := ih _ (hlen ▸ length_drop_lt hword.1 hword.2) _ rfl
        rw [if_pos hword, dif_pos hword, List.filter_map, List.map_map]
        calc
          _ = ((repetitionsOf (wordOutcomes words) (text.drop (words.get i).length)).filter
              fun outcome ↦ outcome.2.isEmpty).map (readAfter [words.get i]) := rfl
          _ = _ := by
            rw [hrest, List.map_map]
            rfl
      · rw [if_neg hword, dif_neg hword]
        rfl

/-- Repeating a choice between words yields, among the outcomes that leave nothing, every way to
make up the text of words that are not empty, once and in lexicographic order. -/
theorem many_words_segments (words : List Text) (inp : Text) :
    ∃ (outcomes : Outcomes (List Text)) (ways : List (List (Fin words.length))),
      many (anyOf (words.map string)) inp = .ok outcomes ∧
      outcomes.filter (fun outcome ↦ outcome.2.isEmpty) =
        ways.map (fun indices ↦ (wordsAt words indices, [])) ∧
      (∀ indices, indices ∈ ways ↔ Segments words inp indices) ∧
      ways.Nodup ∧ ways.Pairwise (List.Lex (· < ·)) :=
  ⟨_, segmentations words inp, many_eq_ok (anyOf_string words) inp,
    filter_repetitionsOf_wordOutcomes words inp, fun _ ↦ mem_segmentations,
    nodup_segmentations words inp, pairwise_segmentations words inp⟩

end Parser

end Backtrack
