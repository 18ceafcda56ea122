import Backtrack.Proofs.Attempt
import Backtrack.Proofs.Blind
import Backtrack.Proofs.Nesting
import Backtrack.Proofs.Seam

/-!
# Layout behind a text

Layout may stand behind a text without making a difference if it begins with whitespace, so that it
goes on with no word, number or mark, and if each of its comments has a newline.  The main statement
is that both grammars end in the same way with such layout behind any text, malformed texts included:
with the same value, in the same fault, or with a parse error that has the same message.  The error
is at the same place too, unless the text has nothing but layout, whose end moves.

The parsers of both grammars are blind to the layout behind a text.  A whole text that is rejected
has something left over by every outcome, and all of these rests are longer by the layout.
-/

namespace Backtrack

open Alphabet Backtrack.Parser

/-- Layout that begins with whitespace and has a newline for each of its comments. -/
structure Trailing (joint : Text) : Prop where
  layout : IsLayout joint
  begins : ∃ c rest, joint = c :: rest ∧ isSpace c

variable {joint text : Text}

theorem Trailing.separates (h : Trailing joint) : Separates joint := h.layout.separates h.begins

theorem Trailing.attach_nil (h : Trailing joint) : attach joint [] = [] := h.layout.skipLayout_eq_nil

theorem length_attach (h : text ≠ []) :
    (attach joint text).length = text.length + joint.length := by
  rw [attach_of_ne_nil h, List.length_append]

theorem Trailing.keepsOrder (h : Trailing joint) : KeepsOrder (attach joint) := by
  intro inp rest
  cases inp with
  | nil => simp [h.attach_nil]
  | cons c after =>
    rw [length_attach (List.cons_ne_nil c after), List.length_cons]
    cases rest with
    | nil =>
      rw [h.attach_nil, List.length_nil]
      omega
    | cons d last =>
      rw [length_attach (List.cons_ne_nil d last), List.length_cons]
      omega

/-! ## Tokens -/

theorem Lexicon.blindTo_accept {τ α : Type} {L : Lexicon τ} (hL : L.EndsAtSpace)
    (h : Trailing joint) (choose : τ → Option α) : BlindTo (attach joint) (L.accept choose) := by
  intro inp
  have hnext : L.next (attach joint inp) = (L.next inp).map (Prod.map id (attach joint)) := by
    by_cases hne : inp = []
    · rw [hne, h.attach_nil, next_nil]
      rfl
    · exact next_attach hL h.separates hne
  unfold accept
  rw [hnext]
  cases L.next inp with
  | none => rfl
  | some pair => cases hvalue : choose pair.1 <;> simp [hvalue, changeRest]

theorem isPrefixOf_append_iff {mark rest : Text} {c : Char} (hc : c ∉ mark) :
    mark.isPrefixOf (text ++ c :: rest) ↔ mark.isPrefixOf text := by
  rw [List.isPrefixOf_iff_prefix, List.isPrefixOf_iff_prefix]
  constructor
  · intro h
    obtain ⟨last, hlast⟩ := h
    obtain ⟨after, hafter, -⟩ := exists_append_of_append_eq hlast.symm hc
    exact ⟨after, hafter.symm⟩
  · intro h
    exact h.trans (List.prefix_append text _)

/-- A mark without whitespace is not read beyond the end of the text. -/
theorem blindTo_symbol (h : Trailing joint) {mark : Text} (hmark : mark.any isSpace = false) :
    BlindTo (attach joint) (symbol mark) := by
  intro inp
  by_cases hne : inp = []
  · rw [hne, h.attach_nil, symbol_apply]
    by_cases hfound : mark.isPrefixOf [] <;> simp [hfound, changeRest, h.attach_nil]
  · obtain ⟨c, rest, hjoint, hspace⟩ := h.begins
    have hc : c ∉ mark := fun hmem ↦ List.any_eq_false.mp hmark c hmem hspace
    rw [attach_of_ne_nil hne, symbol_apply, symbol_apply, hjoint]
    by_cases hfound : mark.isPrefixOf inp
    · have hle : mark.length ≤ inp.length := (List.isPrefixOf_iff_prefix.mp hfound).length_le
      have hskip := h.separates.skipLayout_append (inp.drop mark.length)
      rw [hjoint] at hskip
      rw [if_pos hfound, if_pos ((isPrefixOf_append_iff hc).mpr hfound),
        List.drop_append_of_le_length hle, hskip]
      rfl
    · rw [if_neg hfound, if_neg (mt (isPrefixOf_append_iff hc).mp hfound)]
      rfl

/-! ## Integer expressions -/

namespace Arith

variable {q : Parser Int}

theorem blindTo_natural (h : Trailing joint) : BlindTo (attach joint) natural := by
  rw [natural_eq_accept]
  exact Lexicon.blindTo_accept endsAtSpace_lexicon h _

theorem blindTo_joining (h : Trailing joint) (level : Level) :
    BlindTo (attach joint) (joining level) :=
  (Lexicon.blindTo_accept endsAtSpace_lexicon h _).map _

theorem blindTo_factorOf (h : Trailing joint) (hq : BlindTo (attach joint) q) :
    BlindTo (attach joint) (factorOf q) := by
  have hnumber : BlindTo (attach joint) (map (fun n : Nat ↦ (n : Int)) natural) :=
    (blindTo_natural h).map _
  have hparen : BlindTo (attach joint) (middle (symbol "(".toList) q (symbol ")".toList)) :=
    (blindTo_symbol h rfl).middle hq (blindTo_symbol h rfl)
  exact blindTo_firstOf (List.forall_mem_cons.mpr ⟨hnumber, List.forall_mem_singleton.mpr hparen⟩)

theorem blindTo_expressionOf (h : Trailing joint) (hq : BlindTo (attach joint) q) :
    BlindTo (attach joint) (expressionOf q) := by
  have hpower : BlindTo (attach joint) (powerOf q) := by
    rw [powerOf_eq]
    exact (blindTo_factorOf h hq).chainr1 h.keepsOrder (blindTo_joining h _)
  have hterm : BlindTo (attach joint) (termOf q) := by
    rw [termOf_eq]
    exact hpower.chainl1 h.keepsOrder (blindTo_joining h _)
  rw [expressionOf_eq]
  exact hterm.chainl1 h.keepsOrder (blindTo_joining h _)

theorem blindTo_expression (h : Trailing joint) : BlindTo (attach joint) expression :=
  local_expressionOf.blindTo_recursive (fun _ ↦ leavesSuffixes_expressionOf) h.keepsOrder
    fun _ ↦ blindTo_expressionOf h

end Arith

/-! ## Lambda terms -/

namespace Lambda

variable {q : Parser Term}

theorem blindTo_variableName (h : Trailing joint) : BlindTo (attach joint) variableName := by
  rw [variableName_eq_accept]
  exact Lexicon.blindTo_accept endsAtSpace_lexicon h _

theorem blindTo_lamOf (h : Trailing joint) (hq : BlindTo (attach joint) q) :
    BlindTo (attach joint) (lamOf q) := by
  rw [lamOf_eq_bind]
  apply (blindTo_symbol h rfl).bind
  intro _
  apply (blindTo_variableName h).bind
  intro x
  apply (blindTo_symbol h rfl).bind
  intro _
  exact hq.map (Term.lam x)

theorem blindTo_letOf (h : Trailing joint) (hq : BlindTo (attach joint) q) :
    BlindTo (attach joint) (letOf q) := by
  rw [letOf_eq_bind]
  apply (blindTo_symbol h rfl).bind
  intro _
  apply (blindTo_variableName h).bind
  intro x
  apply (blindTo_symbol h rfl).bind
  intro _
  apply hq.bind
  intro value
  apply (blindTo_symbol h rfl).bind
  intro _
  exact hq.map (Term.letIn x value)

theorem blindTo_atomOf (h : Trailing joint) (hq : BlindTo (attach joint) q) :
    BlindTo (attach joint) (atomOf q) := by
  apply blindTo_firstOf
  intro p hp
  simp only [List.mem_cons, List.not_mem_nil, or_false] at hp
  rcases hp with rfl | rfl | rfl | rfl
  · exact blindTo_lamOf h hq
  · exact blindTo_letOf h hq
  · exact (blindTo_variableName h).map Term.var
  · exact (blindTo_symbol h rfl).middle hq (blindTo_symbol h rfl)

theorem blindTo_exprOf (h : Trailing joint) (hq : BlindTo (attach joint) q) :
    BlindTo (attach joint) (exprOf q) :=
  (blindTo_atomOf h hq).chainl1 h.keepsOrder (blindTo_succeed _)

theorem blindTo_expr (h : Trailing joint) : BlindTo (attach joint) expr :=
  local_exprOf.blindTo_recursive (fun _ ↦ leavesSuffixes_exprOf) h.keepsOrder
    fun _ ↦ blindTo_exprOf h

end Lambda

/-! ## Reports on whole texts -/

/-- Two runs, of which the first is on `text`, end with the same value, in the same fault, or with
parse errors that have the same message, and the same place if the text has more than layout. -/
inductive EndsAlike {α : Type} (text : Text) : Except RunError α → Except RunError α → Prop
  | value (value : α) : EndsAlike text (.ok value) (.ok value)
  | fault (fault : Fault) : EndsAlike text (.error (.fault fault)) (.error (.fault fault))
  | parse {error error' : ParseError} (hmessage : error'.message = error.message)
    (hposition : skipLayout text ≠ [] → error'.position = error.position) :
    EndsAlike text (.error (.parse error)) (.error (.parse error'))

theorem EndsAlike.eq_ok {α : Type} {value : α} {run : Except RunError α}
    (h : EndsAlike text (.ok value) run) : run = .ok value := by
  cases h
  rfl

section Reports

variable {α : Type} {p : Parser α} {outcomes : Outcomes α} {position position' : Nat}
  {message message' : String}

theorem completeValues_attach (h : Trailing joint) (outcomes : Outcomes α) :
    completeValues (outcomes.map (changeRest (attach joint))) = completeValues outcomes := by
  unfold completeValues
  rw [List.filterMap_map]
  congr 1
  funext ⟨value, rest⟩
  cases rest with
  | nil => simp [changeRest, h.attach_nil]
  | cons c rest => rfl

/-- Every rest is longer by the layout, and so is the text. -/
theorem Furthest.position_eq (h : Trailing joint) (hne : skipLayout text ≠ [])
    (hincomplete : ∀ outcome ∈ outcomes, outcome.2 ≠ []) (hfurthest : Furthest text outcomes position)
    (hfurthest' : Furthest (text ++ joint) (outcomes.map (changeRest (attach joint))) position') :
    position' = position := by
  have hlength : (text ++ joint).length = text.length + joint.length := List.length_append
  by_cases hnil : outcomes = []
  · have hplace := hfurthest.1 hnil
    have hplace' := hfurthest'.1 (by rw [hnil, List.map_nil])
    rw [h.separates.skipLayout_append, length_attach hne] at hplace'
    omega
  · have hrest : ∀ outcome ∈ outcomes, (changeRest (attach joint) outcome).2.length =
        outcome.2.length + joint.length := fun outcome hmem ↦ length_attach (hincomplete outcome hmem)
    -- The outcome that reaches furthest without the layout bounds the place with it, and conversely.
    obtain ⟨⟨outcome, hmem, hreached⟩, hleast⟩ := hfurthest.2 hnil
    obtain ⟨⟨other, hother, hreached'⟩, hleast'⟩ := hfurthest'.2 (mt List.map_eq_nil_iff.mp hnil)
    obtain ⟨origin, horigin, rfl⟩ := List.mem_map.mp hother
    have hlow := hleast origin horigin
    have hlow' := hleast' _ (List.mem_map_of_mem hmem)
    rw [hrest origin horigin] at hreached'
    rw [hrest outcome hmem] at hlow'
    omega

/-- The reports on a text that is rejected with and without the layout. -/
theorem reports_agree (h : Trailing joint) (hincomplete : ∀ outcome ∈ outcomes, outcome.2 ≠ [])
    (hsuffix : ∀ outcome ∈ outcomes, outcome.2 <:+ skipLayout text)
    (hreport : Report text outcomes position message)
    (hreport' : Report (text ++ joint) (outcomes.map (changeRest (attach joint))) position' message') :
    message' = message ∧ (skipLayout text ≠ [] → position' = position) := by
  by_cases hskip : skipLayout text = []
  · -- An outcome would leave a suffix of nothing, and so be complete.
    have hnil : outcomes = [] := by
      apply List.eq_nil_iff_forall_not_mem.mpr
      intro outcome hmem
      have hrest := hsuffix outcome hmem
      rw [hskip] at hrest
      exact hincomplete outcome hmem (List.suffix_nil.mp hrest)
    have hskip' : skipLayout (text ++ joint) = [] := by
      rw [h.separates.skipLayout_append, hskip, h.attach_nil]
    have hend := hreport.length_iff.mpr ⟨hnil, hskip⟩
    have hend' := hreport'.length_iff.mpr ⟨by rw [hnil, List.map_nil], hskip'⟩
    exact ⟨(hreport'.end_iff.mpr hend').trans (hreport.end_iff.mpr hend).symm, (absurd hskip ·)⟩
  · have hposition := Furthest.position_eq h hskip hincomplete hreport.furthest hreport'.furthest
    have hlt : position < text.length :=
      Nat.lt_of_le_of_ne hreport.position_le fun hend ↦ hskip (hreport.length_iff.mp hend).2
    refine ⟨?_, fun _ ↦ hposition⟩
    rw [hreport.message_eq, hreport'.message_eq, hposition, List.getElem?_append_left hlt]

theorem endsAlike_of_incomplete (h : Trailing joint) (hsuffix : LeavesSuffixes p)
    (hrun : p (skipLayout text) = .ok outcomes)
    (hrun' : p (skipLayout (text ++ joint)) = .ok (outcomes.map (changeRest (attach joint))))
    (hcomplete : completeValues outcomes = []) :
    EndsAlike text (run p text) (run p (text ++ joint)) := by
  have hparse := (parse_apply p text).trans hrun
  have hparse' := (parse_apply p (text ++ joint)).trans hrun'
  have hcomplete' := (completeValues_attach h outcomes).trans hcomplete
  have hreport := report_reached hsuffix hparse hcomplete
  have hreport' := report_reached hsuffix hparse' hcomplete'
  have hle := leastLength_le_of_parse hsuffix hparse
  have hle' := leastLength_le_of_parse hsuffix hparse'
  have hincomplete := rest_ne_nil_of_incomplete hcomplete
  have hrests := hsuffix.suffix_of_mem hrun
  obtain ⟨hmessage, hposition⟩ := reports_agree h hincomplete hrests hreport hreport'
  rw [run_of_failed (attempt_of_incomplete hparse hcomplete hle),
    run_of_failed (attempt_of_incomplete hparse' hcomplete' hle')]
  exact .parse (congrArg some hmessage) fun hne ↦ congrArg Int.ofNat (hposition hne)

/-- A parser that is blind to the layout ends in the same way with the layout there. -/
theorem endsAlike_of_blindTo (h : Trailing joint) (hsuffix : LeavesSuffixes p)
    (hp : BlindTo (attach joint) p) (text : Text) :
    EndsAlike text (run p text) (run p (text ++ joint)) := by
  have hskip : skipLayout (text ++ joint) = attach joint (skipLayout text) :=
    h.separates.skipLayout_append text
  cases hrun : p (skipLayout text) with
  | error fault =>
    have hrun' : p (skipLayout (text ++ joint)) = .error fault := hskip ▸ hp.eq_error hrun
    rw [run_of_error hrun, run_of_error hrun']
    exact .fault fault
  | ok outcomes =>
    have hrun' : p (skipLayout (text ++ joint)) =
        .ok (outcomes.map (changeRest (attach joint))) := hskip ▸ hp.eq_ok hrun
    cases hcomplete : completeValues outcomes with
    | nil => exact endsAlike_of_incomplete h hsuffix hrun hrun' hcomplete
    | cons value others =>
      have hcomplete' := (completeValues_attach h outcomes).trans hcomplete
      rw [run_of_complete hrun hcomplete, run_of_complete hrun' hcomplete']
      exact .value value

end Reports

/-- Layout behind a text is invisible to both grammars, if it begins with whitespace and each of its
comments ends with a newline. -/
theorem trailing_layout_invisible (text : Text) {joint : Text} (h : Trailing joint) :
    EndsAlike text (Arith.evaluate text) (Arith.evaluate (text ++ joint)) ∧
    EndsAlike text (Lambda.parseTerm text) (Lambda.parseTerm (text ++ joint)) :=
  ⟨endsAlike_of_blindTo h Arith.leavesSuffixes_expression (Arith.blindTo_expression h) text,
    endsAlike_of_blindTo h Lambda.leavesSuffixes_expr (Lambda.blindTo_expr h) text⟩

/-- A sum and a term that end in a comment, with another comment behind them. -/
theorem trailing_layout_invisible_comments :
    Trailing "\n-- more\n".toList ∧
    Arith.evaluate "1 + 2 -- three\n-- more\n".toList = .ok 3 ∧
    Lambda.parseTerm "f x -- call\n-- more\n".toList =
      .ok (.app (.var "f".toList) (.var "x".toList)) := by
  have hcomment : IsLayout ('-' :: '-' :: (" more".toList ++ newline :: [])) :=
    .comment (by decide) .nil
  have htrailing : Trailing "\n-- more\n".toList :=
    ⟨.space (by decide) hcomment, newline, "-- more\n".toList, rfl, by decide⟩
  have hsum : Arith.evaluate "1 + 2 -- three".toList = .ok 3 :=
    eq_ok_of_toOption (by decide +kernel)
  have hcall : Lambda.parseTerm "f x -- call".toList =
      .ok (.app (.var "f".toList) (.var "x".toList)) := eq_ok_of_toOption (by decide +kernel)
  have harith := (trailing_layout_invisible "1 + 2 -- three".toList htrailing).1
  have hlambda := (trailing_layout_invisible "f x -- call".toList htrailing).2
  rw [hsum] at harith
  rw [hcall] at hlambda
  exact ⟨htrailing, harith.eq_ok, hlambda.eq_ok⟩

end Backtrack
