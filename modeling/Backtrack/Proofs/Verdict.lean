import Backtrack.Proofs.Suffix

/-!
# The outcome of an attempt on a whole text

An attempt depends on the parser only through its outcomes behind the leading layout: it accepts with
the first one that leaves nothing, ends in the fault that the parser ends in, and reports a failure in
every other case.  Its log starts with the same record in all cases.

The place of a failure is counted back from the end of the text, by what is left over.  For a parser
that leaves suffixes this is a place in the text, so that there is something to say about it.
-/

namespace Backtrack

theorem characterAt_of_lt {text : Text} {position : Nat} (h : position < text.length) :
    characterAt text position = .ok text[position] := by
  have hplace : ¬ (position : Int) < 0 := Int.not_lt.mpr (Int.natCast_nonneg position)
  simp only [characterAt, if_neg hplace, Int.toNat_natCast, List.getElem?_eq_getElem h]

theorem complaint_of_le {text : Text} {position : Nat} (h : position ≤ text.length) :
    complaint text position = .ok (unexpected text[position]?) := by
  unfold complaint
  rcases Nat.lt_or_eq_of_le h with hlt | rfl
  · rw [if_pos (Int.ofNat_lt.mpr hlt), characterAt_of_lt hlt, List.getElem?_eq_getElem hlt]
    rfl
  · rw [if_neg (Int.lt_irrefl _), List.getElem?_eq_none (Nat.le_refl _)]
    rfl

namespace Parser

variable {α : Type} {p : Parser α} {text : Text} {outcomes : Outcomes α}

/-! ## What is left over -/

/-- How little of a text is left over, by outcomes or by the leading layout. -/
def leastLength (text : Text) (outcomes : Outcomes α) : Nat :=
  (outcomes.map fun outcome ↦ outcome.2.length).min?.getD (skipLayout text).length

/-- The furthest position that outcomes have reached, or the place behind the leading layout. -/
def reached (text : Text) (outcomes : Outcomes α) : Nat := text.length - leastLength text outcomes

theorem leastRest_eq_ok (text : Text) (outcomes : Outcomes α) :
    leastRest text outcomes = .ok (leastLength text outcomes) := by
  unfold leastRest leastLength
  split
  case h_1 least hmin =>
    rw [hmin]
    rfl
  case h_2 hmin =>
    rw [hmin, layout_apply]
    rfl

theorem leastLength_nil (text : Text) :
    leastLength text ([] : Outcomes α) = (skipLayout text).length := rfl

theorem leastLength_of_ne_nil (text : Text) (h : outcomes ≠ []) :
    ∃ outcome ∈ outcomes, leastLength text outcomes = outcome.2.length ∧
      ∀ other ∈ outcomes, outcome.2.length ≤ other.2.length := by
  unfold leastLength
  cases hmin : (outcomes.map fun outcome ↦ outcome.2.length).min? with
  | none =>
    rw [List.min?_eq_none_iff, List.map_eq_nil_iff] at hmin
    exact absurd hmin h
  | some least =>
    obtain ⟨hmem, hleast⟩ := List.min?_eq_some_iff.mp hmin
    obtain ⟨outcome, houtcome, rfl⟩ := List.mem_map.mp hmem
    refine ⟨outcome, houtcome, rfl, ?_⟩
    intro other hother
    exact hleast _ (List.mem_map_of_mem hother)

theorem leastLength_le (h : ∀ outcome ∈ outcomes, outcome.2 <:+ text) :
    leastLength text outcomes ≤ text.length := by
  by_cases hne : outcomes = []
  · rw [hne, leastLength_nil]
    exact length_skipLayout_le text
  · obtain ⟨outcome, hmem, hleast, -⟩ := leastLength_of_ne_nil text hne
    rw [hleast]
    exact (h outcome hmem).length_le

theorem leastLength_le_of_parse (hp : LeavesSuffixes p) (h : parse p text = .ok outcomes) :
    leastLength text outcomes ≤ text.length := leastLength_le (hp.parse.suffix_of_mem h)

theorem furthest_eq_ok (h : leastLength text outcomes ≤ text.length) :
    furthest text outcomes =
      .ok (reached text outcomes, unexpected text[reached text outcomes]?) := by
  have hposition : (text.length : Int) - leastLength text outcomes = reached text outcomes :=
    (Int.ofNat_sub h).symm
  have hcomplaint := complaint_of_le (Nat.sub_le text.length (leastLength text outcomes))
  simp only [furthest, leastRest_eq_ok, ok_bind, hposition]
  rw [reached, hcomplaint]
  rfl

/-! ## Attempts -/

theorem attempt_of_error {fault : Fault} (h : parse p text = .error fault) :
    attempt p text = ⟨.error fault, [.started text.length]⟩ := by
  simp only [attempt, h]

theorem attempt_of_complete (h : parse p text = .ok outcomes) {value : α} {others : List α}
    (hcomplete : completeValues outcomes = value :: others) :
    attempt p text = ⟨.ok (.accepted ⟨value, (value :: others).length⟩),
      .started text.length ::
        if 1 < (value :: others).length then [.ambiguous (value :: others).length] else []⟩ := by
  cases others with
  | nil => simp [attempt, h, hcomplete]
  | cons other others => simp [attempt, h, hcomplete]

theorem attempt_of_incomplete (h : parse p text = .ok outcomes)
    (hcomplete : completeValues outcomes = []) (hle : leastLength text outcomes ≤ text.length) :
    attempt p text =
      ⟨.ok (.failed ⟨text, reached text outcomes,
          some (unexpected text[reached text outcomes]?)⟩),
        [.started text.length,
          .failed (reached text outcomes) (unexpected text[reached text outcomes]?)]⟩ := by
  simp only [attempt, h, hcomplete, furthest_eq_ok hle]

/-! ## Runs -/

theorem run_of_accepted {result : Accepted α} {log : List LogRecord}
    (h : attempt p text = ⟨.ok (.accepted result), log⟩) : run p text = .ok result.value := by
  rw [run, h]

theorem run_of_failed {failure : Failure} {log : List LogRecord}
    (h : attempt p text = ⟨.ok (.failed failure), log⟩) :
    run p text = .error (.parse failure.toError) := by
  rw [run, h]

theorem run_of_error {fault : Fault} (h : p (skipLayout text) = .error fault) :
    run p text = .error (.fault fault) := by
  rw [run, attempt_of_error ((parse_apply p text).trans h)]

theorem run_of_complete (h : p (skipLayout text) = .ok outcomes) {value : α} {others : List α}
    (hcomplete : completeValues outcomes = value :: others) : run p text = .ok value :=
  run_of_accepted (attempt_of_complete ((parse_apply p text).trans h) hcomplete)

/-- Without a complete outcome no value is made up. -/
theorem run_ne_ok_of_incomplete (h : p (skipLayout text) = .ok outcomes)
    (hcomplete : completeValues outcomes = []) (value : α) : run p text ≠ .ok value := by
  have hrun : parse p text = .ok outcomes := (parse_apply p text).trans h
  simp only [run, attempt, hrun, hcomplete]
  cases furthest text outcomes <;> simp

theorem run_of_incomplete (hp : LeavesSuffixes p) (h : p (skipLayout text) = .ok outcomes)
    (hcomplete : completeValues outcomes = []) : ∃ error, run p text = .error (.parse error) := by
  have hrun : parse p text = .ok outcomes := (parse_apply p text).trans h
  have hle := leastLength_le_of_parse hp hrun
  exact ⟨_, run_of_failed (attempt_of_incomplete hrun hcomplete hle)⟩

/-- A run over a whole text yields a value, reports a parse error, or passes a fault on. -/
theorem run_cases (hp : LeavesSuffixes p) (text : Text) :
    (∃ value, run p text = .ok value) ∨ (∃ error, run p text = .error (.parse error)) ∨
      ∃ fault, p (skipLayout text) = .error fault ∧ run p text = .error (.fault fault) := by
  cases hrun : p (skipLayout text) with
  | error fault => exact .inr (.inr ⟨fault, rfl, run_of_error hrun⟩)
  | ok outcomes =>
    cases hcomplete : completeValues outcomes with
    | nil => exact .inr (.inl (run_of_incomplete hp hrun hcomplete))
    | cons value others => exact .inl ⟨value, run_of_complete hrun hcomplete⟩

theorem run_eq_ok_iff {value : α} :
    run p text = .ok value ↔
      ∃ outcomes, p (skipLayout text) = .ok outcomes ∧
        (completeValues outcomes).head? = some value := by
  constructor
  · intro h
    cases hp : p (skipLayout text) with
    | error fault => rw [run_of_error hp] at h; contradiction
    | ok outcomes =>
      refine ⟨outcomes, rfl, ?_⟩
      cases hcomplete : completeValues outcomes with
      | nil => exact absurd h (run_ne_ok_of_incomplete hp hcomplete value)
      | cons v others =>
        rw [run_of_complete hp hcomplete, Except.ok.injEq] at h
        rw [h, List.head?_cons]
  · rintro ⟨outcomes, hp, hhead⟩
    obtain ⟨others, hcomplete⟩ := List.head?_eq_some_iff.mp hhead
    exact run_of_complete hp hcomplete

theorem mem_completeValues {value : α} :
    value ∈ completeValues outcomes ↔ (value, []) ∈ outcomes := by
  simp only [completeValues, List.mem_filterMap]
  constructor
  · rintro ⟨⟨v, rest⟩, hmem, h⟩
    cases rest with
    | nil => cases h; exact hmem
    | cons c rest => contradiction
  · intro hmem
    exact ⟨(value, []), hmem, rfl⟩

theorem completeValues_append (outcomes others : Outcomes α) :
    completeValues (outcomes ++ others) = completeValues outcomes ++ completeValues others :=
  List.filterMap_append

theorem completeValues_singleton_of_ne_nil {value : α} {rest : Text} (h : rest ≠ []) :
    completeValues [(value, rest)] = [] := by
  cases rest with
  | nil => contradiction
  | cons c rest => rfl

/-- What is done to the values makes no difference to which outcomes are complete. -/
theorem completeValues_map {β : Type} (f : α → β) (outcomes : Outcomes α) :
    completeValues (outcomes.map fun (value, rest) ↦ (f value, rest)) =
      (completeValues outcomes).map f := by
  unfold completeValues
  rw [List.filterMap_map, List.map_filterMap]
  congr 1
  funext ⟨value, rest⟩
  cases rest <;> rfl

theorem rest_ne_nil_of_incomplete (hcomplete : completeValues outcomes = []) :
    ∀ outcome ∈ outcomes, outcome.2 ≠ [] := by
  intro outcome hmem hrest
  have hvalue : outcome.1 ∈ completeValues outcomes := mem_completeValues.mpr (hrest ▸ hmem)
  rw [hcomplete] at hvalue
  exact List.not_mem_nil hvalue

/-- A run that yields a value has read the whole text. -/
theorem yields_of_run_eq_ok {value : α} (h : run p text = .ok value) :
    Yields p (skipLayout text) (value, []) := by
  obtain ⟨outcomes, hp, hhead⟩ := run_eq_ok_iff.mp h
  exact ⟨outcomes, hp, mem_completeValues.mp (List.mem_of_head? hhead)⟩

/-- A run that computes a result and leaves nothing has that result. -/
theorem run_of_only {result : Except Fault α} (h : p (skipLayout text) = only result []) :
    run p text = result.mapError RunError.fault := by
  cases result with
  | error fault => exact run_of_error h
  | ok value => exact run_of_complete h rfl

end Parser

end Backtrack
