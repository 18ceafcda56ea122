import Backtrack.Proofs.Attempt
import Backtrack.Proofs.Returns
import Mathlib.Algebra.Ring.Int.Defs
import Mathlib.Order.Nat
import Mathlib.Tactic.Choose

/-!
# The verdict on a choice between parsers

The outcomes of a nondeterministic choice are those of its alternatives, one after the other.  The main
statement is that the verdict on the choice comes from the verdicts on the alternatives alone: it counts
the accepting ones together, and if there are none it reports the furthest failure.

An alternative without outcomes fails behind the leading layout, one with outcomes fails where the
furthest of them ends.  The two kinds of failures can be compared since no outcome ends in front of that
place.
-/

namespace Backtrack

open Backtrack.Parser (leastLength reached)

variable {α : Type}

/-! ## Verdicts together -/

/-- The results of the verdicts that accept. -/
def acceptances (verdicts : List (Verdict α)) : List (Accepted α) :=
  verdicts.filterMap fun
    | .accepted result => some result
    | .failed _ => none

/-- The verdict on two alternatives.  The first one gives the value if it accepts, and the report if the
second one got no further. -/
def Verdict.join : Verdict α → Verdict α → Verdict α
  | .accepted result, .accepted other =>
    .accepted ⟨result.value, result.alternatives + other.alternatives⟩
  | .accepted result, .failed _ => .accepted result
  | .failed _, .accepted other => .accepted other
  | .failed failure, .failed other =>
    .failed (if failure.position < other.position then other else failure)

/-- A verdict that sums up others.  With acceptances among them it has the value of the first one and the
alternatives of all; without any it is one of the failures, and none is further than it. -/
inductive SumsUp (verdicts : List (Verdict α)) : Verdict α → Prop
  | accepted {first : Accepted α} {others : List (Accepted α)}
      (h : acceptances verdicts = first :: others) :
      SumsUp verdicts
        (.accepted ⟨first.value, ((first :: others).map fun result ↦ result.alternatives).sum⟩)
  | failed {failure : Failure} (hnone : acceptances verdicts = [])
      (hmem : .failed failure ∈ verdicts)
      (hmax : ∀ other, .failed other ∈ verdicts → other.position ≤ failure.position) :
      SumsUp verdicts (.failed failure)

section SumsUp

variable {verdicts : List (Verdict α)} {verdict : Verdict α}

theorem acceptances_cons_accepted (result : Accepted α) (verdicts : List (Verdict α)) :
    acceptances (.accepted result :: verdicts) = result :: acceptances verdicts := rfl

theorem acceptances_cons_failed (failure : Failure) (verdicts : List (Verdict α)) :
    acceptances (.failed failure :: verdicts) = acceptances verdicts := rfl

theorem mem_acceptances {result : Accepted α} :
    result ∈ acceptances verdicts ↔ .accepted result ∈ verdicts := by
  induction verdicts with
  | nil => simp [acceptances]
  | cons verdict verdicts ih =>
    cases verdict with
    | accepted other => simp [acceptances_cons_accepted, ih]
    | failed failure => simp [acceptances_cons_failed, ih]

theorem SumsUp.accepted_iff (h : SumsUp verdicts verdict) :
    (∃ result, verdict = .accepted result) ↔ ∃ result, .accepted result ∈ verdicts := by
  simp only [← mem_acceptances]
  cases h with
  | accepted h => simp [h]
  | failed hnone => simp [hnone]

theorem SumsUp.singleton (verdict : Verdict α) : SumsUp [verdict] verdict := by
  cases verdict with
  | accepted result =>
    have h : acceptances [Verdict.accepted result] = [result] := rfl
    simpa using SumsUp.accepted h
  | failed failure =>
    refine .failed rfl List.mem_cons_self ?_
    intro other hother
    cases List.mem_singleton.mp hother
    exact Int.le_refl _

/-- One more verdict is joined to what sums up the others. -/
theorem SumsUp.cons (h : SumsUp verdicts verdict) (front : Verdict α) :
    SumsUp (front :: verdicts) (front.join verdict) := by
  cases front with
  | accepted result =>
    have hfront := acceptances_cons_accepted result verdicts
    cases h with
    | accepted h => exact .accepted (hfront.trans (congrArg _ h))
    | failed hnone => simpa [Verdict.join] using SumsUp.accepted (hfront.trans (congrArg _ hnone))
  | failed failure =>
    have hfront := acceptances_cons_failed failure verdicts
    cases h with
    | accepted h => exact .accepted (hfront.trans h)
    | @failed other hnone hmem hmax =>
      have hall (bound : Int) (hfailure : failure.position ≤ bound) (hother : other.position ≤ bound) :
          ∀ third, .failed third ∈ .failed failure :: verdicts → third.position ≤ bound := by
        intro third hthird
        rcases List.mem_cons.mp hthird with heq | hmem'
        · cases heq
          exact hfailure
        · exact Int.le_trans (hmax third hmem') hother
      have hnone' := hfront.trans hnone
      rw [Verdict.join]
      split
      case isTrue hlt =>
        exact .failed hnone' (List.mem_cons_of_mem _ hmem) (hall _ (Int.le_of_lt hlt) (Int.le_refl _))
      case isFalse hle =>
        exact .failed hnone' List.mem_cons_self (hall _ (Int.le_refl _) (Int.not_lt.mp hle))

end SumsUp

/-! ## The verdict on outcomes -/

/-- The failure at a position of a text. -/
def failureAt (text : Text) (position : Nat) : Failure :=
  ⟨text, position, some (unexpected text[position]?)⟩

/-- The further of two failures in a text is the one at the larger position. -/
theorem join_failureAt (text : Text) (position other : Nat) :
    (Verdict.failed (failureAt text position) : Verdict α).join (.failed (failureAt text other)) =
      .failed (failureAt text (max position other)) := by
  rw [Verdict.join, failureAt, failureAt]
  dsimp only
  split
  case isTrue hlt =>
    rw [Nat.max_eq_right (Int.ofNat_le.mp (Int.le_of_lt hlt)), failureAt]
  case isFalse hle =>
    rw [Nat.max_eq_left (Int.ofNat_le.mp (Int.not_lt.mp hle)), failureAt]

/-- The verdict on a text with these outcomes. -/
def verdictOn (text : Text) (outcomes : Outcomes α) : Verdict α :=
  match completeValues outcomes with
  | [] => .failed (failureAt text (reached text outcomes))
  | value :: others => .accepted ⟨value, (value :: others).length⟩

section Outcomes

variable {text : Text}

/-- The outcomes leave no more of the text than its leading layout does. -/
def BehindLayout (text : Text) (outcomes : Outcomes α) : Prop :=
  ∀ outcome ∈ outcomes, outcome.2.length ≤ (skipLayout text).length

theorem le_leastLength_iff {outcomes : Outcomes α} (h : BehindLayout text outcomes) {bound : Nat} :
    bound ≤ leastLength text outcomes ↔
      bound ≤ (skipLayout text).length ∧ ∀ outcome ∈ outcomes, bound ≤ outcome.2.length := by
  unfold leastLength
  cases hmin : (outcomes.map fun outcome ↦ outcome.2.length).min? with
  | none =>
    obtain rfl : outcomes = [] := by simpa using hmin
    simp
  | some least =>
    obtain ⟨outcome, houtcome, hleast⟩ := List.mem_map.mp (List.min?_mem hmin)
    have hle : least ≤ (skipLayout text).length := hleast ▸ h outcome houtcome
    rw [Option.getD_some, List.le_min?_iff hmin, List.forall_mem_map]
    constructor
    · intro hall
      have hbound : bound ≤ least := hleast ▸ hall outcome houtcome
      exact ⟨hbound.trans hle, hall⟩
    · exact And.right

theorem BehindLayout.append {front back : Outcomes α} (hfront : BehindLayout text front)
    (hback : BehindLayout text back) : BehindLayout text (front ++ back) :=
  List.forall_mem_append.mpr ⟨hfront, hback⟩

theorem leastLength_append {front back : Outcomes α} (hfront : BehindLayout text front)
    (hback : BehindLayout text back) :
    leastLength text (front ++ back) = min (leastLength text front) (leastLength text back) := by
  apply eq_of_forall_le_iff
  intro bound
  rw [Nat.le_min, le_leastLength_iff (hfront.append hback), le_leastLength_iff hfront,
    le_leastLength_iff hback, List.forall_mem_append, and_and_left]

/-- The verdict on the outcomes of two alternatives joins the verdicts on each of them. -/
theorem verdictOn_append {front back : Outcomes α} (hfront : BehindLayout text front)
    (hback : BehindLayout text back) :
    verdictOn text (front ++ back) = (verdictOn text front).join (verdictOn text back) := by
  unfold verdictOn
  rw [Parser.completeValues_append]
  cases completeValues front with
  | nil =>
    cases completeValues back with
    | nil =>
      -- Positions count from the front and what is left over from the end, so the least is the furthest.
      dsimp only [List.nil_append]
      rw [join_failureAt, reached, reached, reached, leastLength_append hfront hback]
      congr 2
      omega
    | cons value others => rfl
  | cons value others =>
    cases completeValues back with
    | nil => simp [Verdict.join]
    | cons other more =>
      simp only [List.cons_append, Verdict.join, List.length_cons, List.length_append]
      congr 2
      omega

/-- The verdict on the outcomes of several runs, one after the other, sums up the verdicts on each. -/
theorem sumsUp_verdictOn {runs : List (Outcomes α)} (hne : runs ≠ [])
    (h : ∀ outcomes ∈ runs, BehindLayout text outcomes) :
    SumsUp (runs.map (verdictOn text)) (verdictOn text runs.flatten) := by
  induction runs with
  | nil => contradiction
  | cons front runs ih =>
    obtain ⟨hfront, hback⟩ := List.forall_mem_cons.mp h
    cases runs with
    | nil =>
      rw [List.flatten_singleton]
      exact .singleton _
    | cons next runs =>
      have hflatten : BehindLayout text (next :: runs).flatten := List.forall_mem_flatten.mpr hback
      rw [List.flatten_cons, verdictOn_append hfront hflatten]
      exact (ih (List.cons_ne_nil _ _) hback).cons _

end Outcomes

/-! ## The verdict on a parser -/

namespace Parser

variable {p : Parser α} {ps : List (Parser α)} {text : Text}

theorem result_attempt_of_ok {outcomes : Outcomes α} (hp : LeavesSuffixes p)
    (h : p (skipLayout text) = .ok outcomes) :
    (attempt p text).result = .ok (verdictOn text outcomes) := by
  have hrun : parse p text = .ok outcomes := (parse_apply p text).trans h
  unfold verdictOn
  cases hcomplete : completeValues outcomes with
  | nil =>
    rw [attempt_of_incomplete hrun hcomplete (leastLength_le_of_parse hp hrun), failureAt]
  | cons value others => rw [attempt_of_complete hrun hcomplete]

theorem LeavesSuffixes.behindLayout {outcomes : Outcomes α} (hp : LeavesSuffixes p)
    (h : p (skipLayout text) = .ok outcomes) : BehindLayout text outcomes :=
  fun outcome hmem ↦ (hp.suffix_of_mem h outcome hmem).length_le

/-- The verdict on a nondeterministic choice sums up the verdicts on its alternatives; in particular it
accepts just if one of them does. -/
theorem attempt_anyOf (hne : ps ≠ []) (hreturns : ∀ p ∈ ps, Returns p)
    (hsuffix : ∀ p ∈ ps, LeavesSuffixes p) (text : Text) :
    ∃ verdicts verdict,
      ps.mapM (fun p ↦ (attempt p text).result) = .ok verdicts ∧
      (attempt (anyOf ps) text).result = .ok verdict ∧
      ((∃ result, verdict = .accepted result) ↔ ∃ result, .accepted result ∈ verdicts) ∧
      SumsUp verdicts verdict := by
  have hrun : ∀ p ∈ ps, ∃ outcomes, p (skipLayout text) = .ok outcomes :=
    fun p hp ↦ hreturns p hp (skipLayout text)
  choose! outcomes houtcomes using hrun
  have hbehind : ∀ run ∈ ps.map outcomes, BehindLayout text run := by
    rintro run hmem
    obtain ⟨p, hp, rfl⟩ := List.mem_map.mp hmem
    exact (hsuffix p hp).behindLayout (houtcomes p hp)
  have hsums := sumsUp_verdictOn (mt List.map_eq_nil_iff.mp hne) hbehind
  refine ⟨(ps.map outcomes).map (verdictOn text), verdictOn text (ps.map outcomes).flatten, ?_, ?_,
    hsums.accepted_iff, hsums⟩
  · rw [List.map_map]
    exact mapM_eq_ok fun p hp ↦ result_attempt_of_ok (hsuffix p hp) (houtcomes p hp)
  · apply result_attempt_of_ok (leavesSuffixes_anyOf hsuffix)
    exact gather_eq_ok houtcomes

/-- Three alternatives on two texts.  They all fail on the first one, one of them at the end of the
layout; two of them accept the second one. -/
theorem attempt_anyOf_words :
    (attempt (anyOf [fail, word, string "ab".toList]) " ab1".toList).result =
        .ok (.failed ⟨" ab1".toList, 3, "Unexpected character '1'."⟩) ∧
      (attempt (anyOf [fail, word, string "ab".toList]) " ab".toList).result =
        .ok (.accepted ⟨"ab".toList, 2⟩) := by
  have hreturns : ∀ p ∈ [fail, word, string "ab".toList], Returns p := by
    simp [Elementary.fail.returns, Elementary.word.returns, returns_string]
  have hsuffix : ∀ p ∈ [fail, word, string "ab".toList], LeavesSuffixes p := by
    simp [leavesSuffixes_fail, leavesSuffixes_word, leavesSuffixes_string]
  have hsums := attempt_anyOf (List.cons_ne_nil _ _) hreturns hsuffix
  constructor
  · have hverdicts : [fail, word, string "ab".toList].mapM
        (fun p ↦ (attempt p " ab1".toList).result) =
        .ok ([1, 3, 3].map fun position ↦ .failed (failureAt " ab1".toList position)) := by
      decide +kernel
    obtain ⟨verdicts, verdict, hrun, hverdict, -, hsum⟩ := hsums " ab1".toList
    cases hverdicts.symm.trans hrun
    rw [hverdict]
    cases hsum with
    | accepted h => contradiction
    | failed hnone hmem hmax =>
      have hfurthest := hmax (failureAt " ab1".toList 3) (by simp)
      obtain ⟨position, hposition, heq⟩ := List.mem_map.mp hmem
      cases heq
      have hle : ∀ position ∈ [1, 3, 3], position ≤ 3 := by decide
      obtain rfl : position = 3 :=
        Nat.le_antisymm (hle position hposition) (Int.ofNat_le.mp hfurthest)
      have hmessage : unexpected (some '1') = "Unexpected character '1'." :=
        unexpected_of_plain (by decide +kernel) (by decide) (by decide)
      have hfailure : failureAt " ab1".toList 3 = ⟨" ab1".toList, 3, "Unexpected character '1'."⟩ :=
        congrArg (fun message ↦ Failure.mk " ab1".toList 3 (some message)) hmessage
      rw [hfailure]
  · have hverdicts : [fail, word, string "ab".toList].mapM
        (fun p ↦ (attempt p " ab".toList).result) =
        .ok [.failed (failureAt " ab".toList 1), .accepted ⟨"ab".toList, 1⟩,
          .accepted ⟨"ab".toList, 1⟩] := by
      decide +kernel
    obtain ⟨verdicts, verdict, hrun, hverdict, -, hsum⟩ := hsums " ab".toList
    cases hverdicts.symm.trans hrun
    rw [hverdict]
    cases hsum with
    | accepted h => cases h; rfl
    | failed hnone => contradiction

end Parser

end Backtrack
