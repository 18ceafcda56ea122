import Backtrack.Proofs.Locality
import Backtrack.Proofs.MonadLaws

/-!
# Parsers that do not see a change

A change makes another text of each text, such as one with more behind it.  A parser is blind to the
change if it reads a changed text as it reads the text itself, and leaves what it leaves there with
the change made to it.  There is one lemma for each combinator.

A loop ends where a step reads nothing, so it is blind only to changes that keep the order of lengths.
A rule may open more activations on the changed text if that is longer; they make no difference if
the body of the rule is local.
-/

namespace Backtrack.Parser

variable {α β γ : Type} {change : Text → Text} {p : Parser α} {inp : Text}

/-- The outcome with the change made to what it leaves. -/
def changeRest (change : Text → Text) (outcome : α × Text) : α × Text :=
  (outcome.1, change outcome.2)

/-- The parser reads a changed text as it reads the text, and leaves the changed rests. -/
def BlindTo (change : Text → Text) (p : Parser α) : Prop :=
  ∀ inp, p (change inp) = List.map (changeRest change) <$> p inp

/-- A text is shorter than another one before the change if and only if it is after the change. -/
def KeepsOrder (change : Text → Text) : Prop :=
  ∀ inp rest, (change rest).length < (change inp).length ↔ rest.length < inp.length

/-- Texts that are one character longer each stay longer, so none gets shorter. -/
theorem KeepsOrder.length_le (h : KeepsOrder change) (inp : Text) :
    inp.length ≤ (change inp).length := by
  induction inp with
  | nil => exact Nat.zero_le _
  | cons c rest ih =>
    have hlt : (change rest).length < (change (c :: rest)).length :=
      (h (c :: rest) rest).mpr (Nat.lt_succ_self rest.length)
    rw [List.length_cons]
    omega

theorem BlindTo.eq_error (h : BlindTo change p) {fault : Fault} (hrun : p inp = .error fault) :
    p (change inp) = .error fault := by
  rw [h, hrun]
  rfl

theorem BlindTo.eq_ok (h : BlindTo change p) {outcomes : Outcomes α} (hrun : p inp = .ok outcomes) :
    p (change inp) = .ok (outcomes.map (changeRest change)) := by
  rw [h, hrun]
  rfl

/-! ## Sequence and choice -/

theorem blindTo_succeed (value : α) : BlindTo change (succeed value) := fun _ ↦ rfl

theorem BlindTo.map (h : BlindTo change p) (f : α → β) : BlindTo change (p.map f) := by
  intro inp
  cases hrun : p inp with
  | error fault => rw [map_of_error hrun, map_of_error (h.eq_error hrun)]; rfl
  | ok outcomes =>
    rw [map_of_ok hrun, map_of_ok (h.eq_ok hrun), ok_map, List.map_map, List.map_map]
    rfl

theorem BlindTo.bind (h : BlindTo change p) {f : α → Parser β}
    (hf : ∀ value, BlindTo change (f value)) : BlindTo change (p.bind f) := by
  intro inp
  cases hrun : p inp with
  | error fault => rw [bind_of_error hrun, bind_of_error (h.eq_error hrun)]; rfl
  | ok outcomes =>
    rw [bind_of_ok hrun, bind_of_ok (h.eq_ok hrun), gather_map, map_gather]
    apply gather_congr
    intro outcome _
    exact hf outcome.1 outcome.2

theorem BlindTo.first (h : BlindTo change p) : BlindTo change (first p) := by
  intro inp
  cases hrun : p inp with
  | error fault => rw [first_of_error hrun, first_of_error (h.eq_error hrun)]; rfl
  | ok outcomes =>
    rw [first_of_ok hrun, first_of_ok (h.eq_ok hrun), ok_map, List.map_take]

theorem blindTo_firstOf {ps : List (Parser α)} (h : ∀ p ∈ ps, BlindTo change p) :
    BlindTo change (firstOf ps) := by
  intro inp
  induction ps with
  | nil => rfl
  | cons p ps ih =>
    obtain ⟨hp, hps⟩ := List.forall_mem_cons.mp h
    cases hrun : p inp with
    | error fault =>
      rw [firstOf_cons_of_error hrun, firstOf_cons_of_error (hp.eq_error hrun)]
      rfl
    | ok outcomes =>
      cases outcomes with
      | nil => rw [firstOf_cons_of_nil hrun, firstOf_cons_of_nil (hp.eq_ok hrun), ih hps]
      | cons outcome others =>
        rw [firstOf_cons_of_cons hrun, firstOf_cons_of_cons (hp.eq_ok hrun)]
        rfl

theorem BlindTo.middle {left : Parser β} {right : Parser γ} (hleft : BlindTo change left)
    (h : BlindTo change p) (hright : BlindTo change right) : BlindTo change (middle left p right) := by
  rw [middle_eq_bind]
  exact hleft.bind fun _ ↦ h.bind fun value ↦ hright.map fun _ ↦ value

/-! ## Chains -/

section Chains

variable {op : Parser (Operation α)} {step : Parser (Operation α × α)}

theorem BlindTo.chainStep (h : BlindTo change p) (hop : BlindTo change op) :
    BlindTo change (chainStep p op) := (hop.bind fun f ↦ h.map fun y ↦ (f, y)).first

theorem foldSteps_change (hchange : KeepsOrder change) (h : BlindTo change step) (x : α)
    (inp : Text) :
    foldSteps step x (change inp) = changeRest change <$> foldSteps step x inp := by
  fun_induction foldSteps step x inp with
  | case1 x inp fault hrun => exact foldSteps_of_error (h.eq_error hrun)
  | case2 x inp hrun => exact foldSteps_of_nil (h.eq_ok hrun)
  | case3 x inp f y rest steps hrun shorter fault hz =>
    rw [foldSteps_of_cons (h.eq_ok hrun) ((hchange inp rest).mpr shorter), hz]
    rfl
  | case4 x inp f y rest steps hrun shorter z hz ih =>
    rw [foldSteps_of_cons (h.eq_ok hrun) ((hchange inp rest).mpr shorter), hz]
    exact ih
  | case5 x inp f y rest steps hrun notShorter =>
    have hnot : ¬ (change rest).length < (change inp).length := mt (hchange inp rest).mp notShorter
    rw [foldSteps, h.eq_ok hrun]
    exact if_neg hnot

theorem groupRight_change (hchange : KeepsOrder change) (h : BlindTo change step) (x : α)
    (inp : Text) :
    groupRight step x (change inp) = changeRest change <$> groupRight step x inp := by
  fun_induction groupRight step x inp with
  | case1 x inp fault hrun => exact groupRight_of_error (h.eq_error hrun)
  | case2 x inp hrun => exact groupRight_of_nil (h.eq_ok hrun)
  | case3 x inp f y rest steps hrun shorter ih =>
    rw [groupRight_of_cons (h.eq_ok hrun) ((hchange inp rest).mpr shorter)]
    change (groupRight step y (change rest) >>= _) = _
    rw [ih]
    cases groupRight step y rest with
    | error fault => rfl
    | ok last => cases hvalue : f x last.1 <;> simp [changeRest, hvalue]
  | case4 x inp f y rest steps hrun notShorter =>
    have hnot : ¬ (change rest).length < (change inp).length := mt (hchange inp rest).mp notShorter
    rw [groupRight, h.eq_ok hrun]
    exact if_neg hnot

/-- A run that goes on from each outcome with a loop that does not see the change. -/
theorem BlindTo.mapM (h : BlindTo change p) {go : α × Text → Except Fault (α × Text)}
    (hgo : ∀ x rest, go (x, change rest) = changeRest change <$> go (x, rest)) (inp : Text) :
    (p (change inp) >>= fun outcomes ↦ outcomes.mapM go) =
      List.map (changeRest change) <$> (p inp >>= fun outcomes ↦ outcomes.mapM go) := by
  cases hrun : p inp with
  | error fault => rw [h.eq_error hrun]; rfl
  | ok outcomes =>
    rw [h.eq_ok hrun, ok_bind, ok_bind, List.mapM_map, map_mapM]
    apply mapM_congr
    intro outcome _
    exact hgo outcome.1 outcome.2

theorem BlindTo.chainl1 (hchange : KeepsOrder change) (h : BlindTo change p)
    (hop : BlindTo change op) : BlindTo change (chainl1 p op) :=
  h.mapM fun x rest ↦ foldSteps_change hchange (h.chainStep hop) x rest

theorem BlindTo.chainr1 (hchange : KeepsOrder change) (h : BlindTo change p)
    (hop : BlindTo change op) : BlindTo change (chainr1 p op) := by
  intro inp
  rw [chainr1_eq_groupRight, chainr1_eq_groupRight]
  exact h.mapM (fun x rest ↦ groupRight_change hchange (h.chainStep hop) x rest) inp

end Chains

/-! ## Recursion -/

section Recursion

variable {body : Parser α → Parser α}

theorem blindTo_nested (hbody : ∀ q, BlindTo change q → BlindTo change (body q)) (n : Nat) :
    BlindTo change (nested body n) := by
  induction n with
  | zero => exact fun _ ↦ rfl
  | succ n ih => exact fun inp ↦ hbody (nested body n) ih inp

theorem Local.blindTo_recursive (hlocal : Local body) (hsuffix : KeepsSuffixes body)
    (hchange : KeepsOrder change) (hbody : ∀ q, BlindTo change q → BlindTo change (body q)) :
    BlindTo change (recursive body) := by
  intro inp
  have hle := hchange.length_le inp
  -- A longer text allows more activations than the rule needs on the text itself.
  have hstable : nested body ((change inp).length + 1) inp = recursive body inp :=
    nested_congr hlocal hsuffix (by omega) (Nat.lt_succ_self inp.length)
  calc
    recursive body (change inp) = nested body ((change inp).length + 1) (change inp) := rfl
    _ = List.map (changeRest change) <$> nested body ((change inp).length + 1) inp :=
      blindTo_nested hbody _ inp
    _ = List.map (changeRest change) <$> recursive body inp := by rw [hstable]

end Recursion

end Backtrack.Parser
