import Backtrack.Proofs.Returns
import Backtrack.Proofs.Suffix
import Mathlib.Data.List.Flatten
import Mathlib.Data.List.Perm.Basic
import Mathlib.Tactic.Choose

/-!
# Grammars that are changed in places

`Revised change p q` says that `q` is `p` with changes of a kind in any number of places: in parts
of parts, in the continuations of a sequence, and more than once in one place.

The main statement carries a relation between lists of outcomes from the places to the whole.  The
relation has to be one that is kept when lists are joined, and when each element gives way to
related lists; then all combinators keep it, since they make their outcomes out of those of their
parts in these two ways.  For repetition this is an induction on the length of the text.
-/

namespace Backtrack

/-- A way to compare lists that is kept by joining them. -/
structure Comparison (R : (α : Type) → List α → List α → Prop) : Prop where
  refl {α : Type} (as : List α) : R α as as
  trans {α : Type} {as bs cs : List α} (hab : R α as bs) (hbc : R α bs cs) : R α as cs
  append {α : Type} {as as' bs bs' : List α} (ha : R α as as') (hb : R α bs bs') :
    R α (as ++ bs) (as' ++ bs')
  flatMap {α β : Type} {as as' : List α} {f g : α → List β} (ha : R α as as')
    (hf : ∀ a, R β (f a) (g a)) : R β (as.flatMap f) (as'.flatMap g)

theorem comparison_sublist : Comparison fun _ ↦ List.Sublist where
  refl := List.Sublist.refl
  trans := List.Sublist.trans
  append := List.Sublist.append
  flatMap ha hf := (ha.flatMap _).trans (List.Sublist.flatMap_right _ fun a _ ↦ hf a)

theorem comparison_perm : Comparison fun _ ↦ List.Perm where
  refl := List.Perm.refl
  trans := List.Perm.trans
  append := List.Perm.append
  flatMap ha hf := ha.flatMap fun a _ ↦ hf a

section Comparisons

variable {R : (α : Type) → List α → List α → Prop} {α β : Type}

theorem Comparison.map (hR : Comparison R) {as as' : List α} (ha : R α as as') (f : α → β) :
    R β (as.map f) (as'.map f) := by
  rw [List.map_eq_flatMap, List.map_eq_flatMap]
  exact hR.flatMap ha fun a ↦ hR.refl [f a]

/-- Two runs that end with lists that compare. -/
def Compares (R : (α : Type) → List α → List α → Prop) (run run' : Except Fault (List α)) : Prop :=
  ∃ as as', run = .ok as ∧ run' = .ok as' ∧ R α as' as

theorem compares_gather (hR : Comparison R) {f f' : α → Except Fault (List β)}
    (hf : ∀ a, Compares R (f a) (f' a)) {as as' : List α} (ha : R α as' as) :
    Compares R (gather f as) (gather f' as') := by
  choose g g' hg hg' hgg' using hf
  exact ⟨as.flatMap g, as'.flatMap g', gather_eq_ok fun a _ ↦ hg a, gather_eq_ok fun a _ ↦ hg' a,
    hR.flatMap ha hgg'⟩

end Comparisons

namespace Parser

variable {R : (α : Type) → List α → List α → Prop} {α β γ : Type} {p p' p'' : Parser α}

/-! ## Combinators keep comparisons -/

/-- On every text both parsers return, and the outcomes of the second compare with those of the
first. -/
def Related (R : (α : Type) → List α → List α → Prop) (p p' : Parser α) : Prop :=
  ∀ inp, Compares R (p inp) (p' inp)

theorem Related.returns_right (h : Related R p p') : Returns p' := by
  intro inp
  obtain ⟨-, revised, -, hrun, -⟩ := h inp
  exact ⟨revised, hrun⟩

section Combinators

variable (hR : Comparison R)

include hR

theorem Returns.related (h : Returns p) : Related R p p := by
  intro inp
  obtain ⟨outcomes, hrun⟩ := h inp
  exact ⟨outcomes, outcomes, hrun, hrun, hR.refl outcomes⟩

theorem Related.trans (h : Related R p p') (h' : Related R p' p'') : Related R p p'' := by
  intro inp
  obtain ⟨outcomes, mid, hrun, hmid, hcompare⟩ := h inp
  obtain ⟨same, last, hsame, hlast, hcompare'⟩ := h' inp
  cases hmid.symm.trans hsame
  exact ⟨outcomes, last, hrun, hlast, hR.trans hcompare' hcompare⟩

theorem Related.bind (hp : Related R p p') {f f' : α → Parser β}
    (hf : ∀ value, Related R (f value) (f' value)) : Related R (p.bind f) (p'.bind f') := by
  intro inp
  obtain ⟨outcomes, revised, hrun, hrevised, hcompare⟩ := hp inp
  rw [bind_of_ok hrun, bind_of_ok hrevised]
  exact compares_gather hR (fun outcome ↦ hf outcome.1 outcome.2) hcompare

theorem Related.map (hp : Related R p p') (f : α → β) : Related R (p.map f) (p'.map f) := by
  intro inp
  obtain ⟨outcomes, revised, hrun, hrevised, hcompare⟩ := hp inp
  exact ⟨_, _, map_of_ok hrun f, map_of_ok hrevised f, hR.map hcompare _⟩

theorem Related.anyOf {alternatives : List (Parser α × Parser α)}
    (h : ∀ pair ∈ alternatives, Related R pair.1 pair.2) :
    Related R (anyOf (alternatives.map Prod.fst)) (anyOf (alternatives.map Prod.snd)) := by
  intro inp
  induction alternatives with
  | nil => exact ⟨[], [], rfl, rfl, hR.refl []⟩
  | cons pair alternatives ih =>
    obtain ⟨hhead, htail⟩ := List.forall_mem_cons.mp h
    obtain ⟨front, front', hfront, hfront', hcompare⟩ := hhead inp
    obtain ⟨back, back', hback, hback', hcompare'⟩ := ih htail
    refine ⟨front ++ back, front' ++ back', ?_, ?_, hR.append hcompare hcompare'⟩
    · rw [List.map_cons, anyOf_cons, hfront, hback]
      rfl
    · rw [List.map_cons, anyOf_cons, hfront', hback']
      rfl

/-- The induction is on the length of the text, as the recursion goes on behind what was read. -/
theorem Related.repetitions (hp : Related R p p') (inp : Text) :
    Compares R (repetitions p inp) (repetitions p' inp) := by
  induction hlen : inp.length using Nat.strongRecOn generalizing inp with
  | ind n ih =>
    have hnext (outcome : α × Text) : Compares R
        (if outcome.2.length < inp.length then
          List.map (readAfter [outcome.1]) <$> Parser.repetitions p outcome.2 else pure [])
        (if outcome.2.length < inp.length then
          List.map (readAfter [outcome.1]) <$> Parser.repetitions p' outcome.2 else pure []) := by
      by_cases shorter : outcome.2.length < inp.length
      · obtain ⟨more, more', hmore, hmore', hcompare⟩ := ih _ (hlen ▸ shorter) outcome.2 rfl
        rw [if_pos shorter, if_pos shorter, hmore, hmore']
        exact ⟨_, _, rfl, rfl, hR.map hcompare _⟩
      · rw [if_neg shorter, if_neg shorter]
        exact ⟨[], [], rfl, rfl, hR.refl []⟩
    obtain ⟨outcomes, revised, hrun, hrevised, hcompare⟩ := hp inp
    obtain ⟨longer, longer', hlonger, hlonger', hcompare'⟩ := compares_gather hR hnext hcompare
    refine ⟨longer ++ [([], inp)], longer' ++ [([], inp)], ?_, ?_,
      hR.append hcompare' (hR.refl _)⟩
    · rw [repetitions_of_ok hrun, repetitionsFrom, hlonger]
      rfl
    · rw [repetitions_of_ok hrevised, repetitionsFrom, hlonger']
      rfl

theorem Related.many (hp : Related R p p') : Related R (many p) (many p') := by
  intro inp
  obtain ⟨outcomes, revised, hrun, hrevised, -⟩ := hp inp
  rw [many_of_ok hrun, many_of_ok hrevised]
  exact hp.repetitions hR inp

theorem Related.many1 (hp : Related R p p') : Related R (many1 p) (many1 p') :=
  hp.bind hR fun x ↦ (hp.many hR).map hR fun xs ↦ x :: xs

theorem Related.middle {left left' : Parser β} {right right' : Parser γ}
    (hleft : Related R left left') (hp : Related R p p') (hright : Related R right right') :
    Related R (middle left p right) (middle left' p' right') := by
  rw [middle_eq_bind, middle_eq_bind]
  exact hleft.bind hR fun _ ↦ hp.bind hR fun value ↦ hright.map hR fun _ ↦ value

theorem Related.sepBy1 {sep sep' : Parser β} (hp : Related R p p') (hsep : Related R sep sep') :
    Related R (sepBy1 p sep) (sepBy1 p' sep') :=
  hp.bind hR fun x ↦ ((hsep.bind hR fun _ ↦ hp).many hR).map hR fun xs ↦ x :: xs

theorem Related.sepBy {sep sep' : Parser β} (hp : Related R p p') (hsep : Related R sep sep') :
    Related R (sepBy p sep) (sepBy p' sep') := by
  have hempty : Related R (succeed ([] : List α)) (succeed []) :=
    (Elementary.succeed []).returns.related hR
  have halternatives : ∀ pair ∈ [(Parser.sepBy1 p sep, Parser.sepBy1 p' sep'),
      (succeed [], succeed [])], Related R pair.1 pair.2 :=
    List.forall_mem_cons.mpr ⟨hp.sepBy1 hR hsep, List.forall_mem_singleton.mpr hempty⟩
  exact Related.anyOf hR halternatives

theorem Related.lexeme (hp : Related R p p') : Related R (lexeme p) (lexeme p') :=
  hp.bind hR fun value ↦ Returns.related hR fun inp ↦ ⟨_, replace_layout value inp⟩

theorem Related.parse (hp : Related R p p') : Related R (parse p) (parse p') :=
  (Returns.related hR fun inp ↦ ⟨_, layout_apply inp⟩).bind hR fun _ ↦ hp

end Combinators

/-! ## Changes in any number of places -/

/-- The second grammar is the first one, changed in any number of places.  The first one is put
together by the combinators from elementary parsers, and from other parsers that return and leave
suffixes. -/
inductive Revised (change : (α : Type) → Parser α → Parser α → Prop) :
    {α : Type} → Parser α → Parser α → Prop
  | elementary {α : Type} {p : Parser α} (h : Elementary p) : Revised change p p
  | foreign {α : Type} {p : Parser α} (h : Returns p) (hsuffix : LeavesSuffixes p) :
    Revised change p p
  | change {α : Type} {p q q' : Parser α} (h : Revised change p q) (hchange : change α q q') :
    Revised change p q'
  | bind {α β : Type} {p q : Parser α} {f g : α → Parser β} (hp : Revised change p q)
    (hf : ∀ value, Revised change (f value) (g value)) : Revised change (p.bind f) (q.bind g)
  | map {α β : Type} {p q : Parser α} (f : α → β) (hp : Revised change p q) :
    Revised change (p.map f) (q.map f)
  | replace {α β : Type} {p q : Parser α} (value : β) (hp : Revised change p q) :
    Revised change (p.replace value) (q.replace value)
  | anyOf {α : Type} {alternatives : List (Parser α × Parser α)}
    (h : ∀ pair ∈ alternatives, Revised change pair.1 pair.2) :
    Revised change (.anyOf (alternatives.map Prod.fst)) (.anyOf (alternatives.map Prod.snd))
  | many {α : Type} {p q : Parser α} (hp : Revised change p q) : Revised change p.many q.many
  | many1 {α : Type} {p q : Parser α} (hp : Revised change p q) : Revised change p.many1 q.many1
  | middle {α β γ : Type} {left left' : Parser β} {p q : Parser α} {right right' : Parser γ}
    (hleft : Revised change left left') (hp : Revised change p q)
    (hright : Revised change right right') :
    Revised change (.middle left p right) (.middle left' q right')
  | sepBy1 {α β : Type} {p q : Parser α} {sep sep' : Parser β} (hp : Revised change p q)
    (hsep : Revised change sep sep') : Revised change (p.sepBy1 sep) (q.sepBy1 sep')
  | sepBy {α β : Type} {p q : Parser α} {sep sep' : Parser β} (hp : Revised change p q)
    (hsep : Revised change sep sep') : Revised change (p.sepBy sep) (q.sepBy sep')
  | lexeme {α : Type} {p q : Parser α} (hp : Revised change p q) :
    Revised change p.lexeme q.lexeme
  | parse {α : Type} {p q : Parser α} (hp : Revised change p q) : Revised change p.parse q.parse

/-- A choice between fixed words, left as it is. -/
theorem Revised.words {change : (α : Type) → Parser α → Parser α → Prop} (words : List Text) :
    Revised change (Parser.anyOf (words.map string)) (Parser.anyOf (words.map string)) := by
  have hpairs : ∀ pair ∈ words.map fun word ↦ (string word, string word),
      Revised change pair.1 pair.2 := by
    intro pair hpair
    obtain ⟨word, -, rfl⟩ := List.mem_map.mp hpair
    exact .elementary (.string word)
  have hsame := Revised.anyOf hpairs
  rw [List.map_map, List.map_map] at hsame
  exact hsame

/-- If every change, made to a parser that returns, makes one that compares with it, the changed
grammar compares with the first one on every text. -/
theorem Revised.related {change : (α : Type) → Parser α → Parser α → Prop} (hR : Comparison R)
    (hchange : ∀ {α : Type} {q q' : Parser α}, change α q q' → Returns q → Related R q q')
    (h : Revised change p p') : Related R p p' := by
  induction h with
  | elementary h => exact h.returns.related hR
  | foreign h _ => exact h.related hR
  -- A change is made to what the changes before it have left; this returns by the hypothesis.
  | change _ hstep ih => exact ih.trans hR (hchange hstep ih.returns_right)
  | bind _ _ ihp ihf => exact ihp.bind hR ihf
  | map f _ ih => exact ih.map hR f
  | replace value _ ih => exact ih.map hR fun _ ↦ value
  | anyOf _ ih => exact Related.anyOf hR ih
  | many _ ih => exact ih.many hR
  | many1 _ ih => exact ih.many1 hR
  | middle _ _ _ ihleft ihp ihright => exact ihleft.middle hR ihp ihright
  | sepBy1 _ _ ihp ihsep => exact ihp.sepBy1 hR ihsep
  | sepBy _ _ ihp ihsep => exact ihp.sepBy hR ihsep
  | lexeme _ ih => exact ih.lexeme hR
  | parse _ ih => exact ih.parse hR

theorem Elementary.leavesSuffixes (h : Elementary p) : LeavesSuffixes p := by
  cases h with
  | succeed value => exact leavesSuffixes_succeed value
  | fail => exact leavesSuffixes_fail
  | item => exact leavesSuffixes_item
  | satisfy accepts => exact leavesSuffixes_satisfy accepts
  | char c => exact leavesSuffixes_satisfy _
  | string text => exact leavesSuffixes_string text
  | eof => exact leavesSuffixes_eof
  | digit => exact leavesSuffixes_satisfy _
  | lower => exact leavesSuffixes_satisfy _
  | upper => exact leavesSuffixes_satisfy _
  | letter => exact leavesSuffixes_letter
  | alphanumeric => exact leavesSuffixes_alphanumeric
  | takeWhile accepts => exact leavesSuffixes_takeWhile accepts
  | word => exact leavesSuffixes_word

/-- The grammar as it was before the changes leaves suffixes. -/
theorem Revised.leavesSuffixes {change : (α : Type) → Parser α → Parser α → Prop}
    (h : Revised change p p') : LeavesSuffixes p := by
  induction h with
  | elementary h => exact h.leavesSuffixes
  | foreign _ hsuffix => exact hsuffix
  | change _ _ ih => exact ih
  | bind _ _ ihp ihf => exact ihp.bind ihf
  | map f _ ih => exact ih.map f
  | replace value _ ih => exact ih.replace value
  | anyOf _ ih =>
    apply leavesSuffixes_anyOf
    intro p hp
    obtain ⟨pair, hpair, rfl⟩ := List.mem_map.mp hp
    exact ih pair hpair
  | many _ ih => exact ih.many
  | many1 _ ih => exact ih.many1
  | middle _ _ _ ihleft ihp ihright => exact ihleft.middle ihp ihright
  | sepBy1 _ _ ihp ihsep => exact ihp.sepBy1 ihsep
  | sepBy _ _ ihp ihsep => exact ihp.sepBy ihsep
  | lexeme _ ih => exact ih.lexeme
  | parse _ ih => exact ih.parse

end Parser

end Backtrack
