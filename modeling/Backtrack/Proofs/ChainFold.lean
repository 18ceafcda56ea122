import Backtrack.Proofs.Definite
import Backtrack.Proofs.Greedy

/-!
# Chains as folds

Both chains read the same steps: after an operand, the longest committed repetition of an operator
with an operand behind it.  They differ only in how the steps are folded, as long as no operator is
undefined on its operands.  The main statement says so for parsers that may be ambiguous and may
fault.  It follows that both chains end in the same places, and that they are the same chain if
their only operator is associative.

The left chain folds while it reads.  Its loop is compared with the repetition by an induction on
the run; the rest is about sequences of parsers and about lists.
-/

namespace Backtrack

/-! ## Results that are mapped -/

section Runs

variable {α β γ : Type} {f : α → Except Fault β}

theorem map_gather {f : α → Except Fault (List β)} (g : β → γ) (as : List α) :
    List.map g <$> gather f as = gather (fun a ↦ List.map g <$> f a) as := by
  induction as with
  | nil => rfl
  | cons a as ih =>
    rw [gather_cons, gather_cons, ← ih]
    cases f a with
    | error fault => rfl
    | ok front => cases gather f as <;> simp

theorem map_mapM (g : β → γ) (as : List α) :
    List.map g <$> as.mapM f = as.mapM fun a ↦ g <$> f a := by
  induction as with
  | nil => rfl
  | cons a as ih =>
    rw [List.mapM_cons, List.mapM_cons, ← ih]
    cases f a with
    | error fault => rfl
    | ok b => cases as.mapM f <;> rfl

theorem gather_singletons (as : List α) :
    gather (fun a ↦ (fun b ↦ [b]) <$> f a) as = as.mapM f := by
  induction as with
  | nil => rfl
  | cons a as ih =>
    rw [gather_cons, List.mapM_cons, ih]
    cases f a with
    | error fault => rfl
    | ok b => cases as.mapM f <;> rfl

theorem length_of_mapM_eq_ok {as : List α} {bs : List β} (h : as.mapM f = .ok bs) :
    bs.length = as.length := by
  induction as generalizing bs with
  | nil =>
    cases h
    rfl
  | cons a as ih =>
    rw [List.mapM_cons] at h
    obtain ⟨b, -, htail⟩ := exists_of_bind_eq_ok h
    obtain ⟨tail, hmore, hsame⟩ := exists_of_bind_eq_ok htail
    cases hsame
    rw [List.length_cons, List.length_cons, ih hmore]

end Runs

namespace Parser

variable {α β γ : Type} {p : Parser α} {op : Parser (Operation α)} {inp : Text}

theorem map_apply (p : Parser α) (f : α → β) (inp : Text) :
    p.map f inp = List.map (fun (value, rest) ↦ (f value, rest)) <$> p inp := by
  unfold map
  cases p inp <;> rfl

theorem map_bind (p : Parser α) (f : α → Parser β) (g : β → γ) :
    (p.bind f).map g = p.bind fun x ↦ (f x).map g := by
  funext inp
  cases h : p inp with
  | error fault => rw [map_of_error (bind_of_error h f), bind_of_error h]
  | ok outcomes =>
    rw [map_apply, bind_of_ok h, bind_of_ok h, map_gather]
    simp only [map_apply]

theorem map_map (p : Parser α) (f : α → β) (g : β → γ) :
    (p.map f).map g = p.map fun x ↦ g (f x) := by
  funext inp
  cases h : p inp with
  | error fault => rw [map_of_error (map_of_error h f), map_of_error h]
  | ok outcomes =>
    rw [map_of_ok (map_of_ok h f), map_of_ok h, List.map_map]
    rfl

theorem map_congr_of_yields {f g : α → β}
    (h : ∀ value rest, Yields p inp (value, rest) → f value = g value) :
    p.map f inp = p.map g inp := by
  cases hrun : p inp with
  | error fault => rw [map_of_error hrun, map_of_error hrun]
  | ok outcomes =>
    rw [map_of_ok hrun, map_of_ok hrun, Except.ok.injEq]
    apply List.map_congr_left
    intro outcome hmem
    exact Prod.ext (h outcome.1 outcome.2 ⟨outcomes, hrun, hmem⟩) rfl

/-! ## Folding the steps of a chain -/

/-- The value of an operation; where it is undefined, its left operand. -/
def valueOf (f : Operation α) (x y : α) : α := (f x y).toOption.getD x

/-- The value of a chain whose operators apply from the left on. -/
def foldLeftValues (x : α) (steps : List (Operation α × α)) : α :=
  steps.foldl (fun acc (f, y) ↦ valueOf f acc y) x

/-- The value of a chain whose operators apply from the right end on. -/
def foldRightValues (x : α) : List (Operation α × α) → α
  | [] => x
  | (f, y) :: steps => valueOf f x (foldRightValues y steps)

theorem foldLeftValues_cons (x : α) (step : Operation α × α) (steps : List (Operation α × α)) :
    foldLeftValues x (step :: steps) = foldLeftValues (valueOf step.1 x step.2) steps := rfl

theorem eq_ok_valueOf {f : Operation α} {x y : α} (h : ∀ fault, f x y ≠ .error fault) :
    f x y = .ok (valueOf f x y) := by
  unfold valueOf
  cases hf : f x y with
  | error fault => exact absurd hf (h fault)
  | ok z => rfl

theorem foldRight_eq_ok {steps : List (Operation α × α)}
    (h : ∀ step ∈ steps, ∀ x y fault, step.1 x y ≠ .error fault) (x : α) :
    foldRight x steps = .ok (foldRightValues x steps) := by
  induction steps generalizing x with
  | nil => rfl
  | cons step steps ih =>
    obtain ⟨hhead, htail⟩ := List.forall_mem_cons.mp h
    simp only [foldRight, ih htail step.2, ok_bind, foldRightValues]
    exact eq_ok_valueOf (hhead x (foldRightValues step.2 steps))

/-- One associative operator makes the same value from both ends. -/
theorem foldLeftValues_eq_foldRightValues {g : α → α → α}
    (hassoc : ∀ x y z, g (g x y) z = g x (g y z)) {steps : List (Operation α × α)}
    (h : ∀ step ∈ steps, valueOf step.1 = g) (x : α) :
    foldLeftValues x steps = foldRightValues x steps := by
  have shift {steps : List (Operation α × α)} (h : ∀ step ∈ steps, valueOf step.1 = g) (x y : α) :
      foldLeftValues (g x y) steps = g x (foldLeftValues y steps) := by
    induction steps generalizing y with
    | nil => rfl
    | cons step steps ih =>
      obtain ⟨hhead, htail⟩ := List.forall_mem_cons.mp h
      rw [foldLeftValues_cons, foldLeftValues_cons, hhead, hassoc, ih htail]
  induction steps generalizing x with
  | nil => rfl
  | cons step steps ih =>
    obtain ⟨hhead, htail⟩ := List.forall_mem_cons.mp h
    rw [foldLeftValues_cons, foldRightValues, hhead, shift htail, ih htail]

/-! ## Chains before they are folded -/

/-- The first operand of a chain and the steps behind it. -/
def chainSteps (p : Parser α) (op : Parser (Operation α)) : Parser (α × List (Operation α × α)) :=
  bind p fun x ↦ map (fun steps ↦ (x, steps)) (first (many (chainStep p op)))

theorem chainSteps_apply (p : Parser α) (op : Parser (Operation α)) (inp : Text) :
    chainSteps p op inp = (do
      let outcomes ← p inp
      outcomes.mapM fun (x, rest) ↦
        (fun (steps, last) ↦ ((x, steps), last)) <$> repeatFirst (chainStep p op) rest) := by
  have hsteps (x : α) (rest : Text) :
      map (fun steps ↦ (x, steps)) (greedy (chainStep p op)) rest =
        (fun outcome ↦ [outcome]) <$> (fun (steps, last) ↦ ((x, steps), last)) <$>
          repeatFirst (chainStep p op) rest := by
    unfold map greedy
    cases repeatFirst (chainStep p op) rest <;> rfl
  unfold chainSteps
  rw [first_many_eq_greedy (unambiguous_chainStep p op), bind_apply]
  simp only [hsteps]
  cases p inp with
  | error fault => rfl
  | ok outcomes => exact gather_singletons outcomes

/-- There is one chain for each outcome of the first operand. -/
theorem length_of_chainSteps {chains : Outcomes (α × List (Operation α × α))}
    (h : chainSteps p op inp = .ok chains) :
    ∃ outcomes, p inp = .ok outcomes ∧ chains.length = outcomes.length := by
  rw [chainSteps_apply] at h
  obtain ⟨outcomes, hrun, hchains⟩ := exists_of_bind_eq_ok h
  exact ⟨outcomes, hrun, length_of_mapM_eq_ok hchains⟩

/-- A chain that folds the steps behind each first operand. -/
theorem mapM_fold_eq_map (fold : α → List (Operation α × α) → α) (inp : Text) :
    (do
      let outcomes ← p inp
      outcomes.mapM fun (x, rest) ↦
        (fun (steps, last) ↦ (fold x steps, last)) <$> repeatFirst (chainStep p op) rest) =
      map (fun (x, steps) ↦ fold x steps) (chainSteps p op) inp := by
  rw [map_apply, chainSteps_apply]
  cases p inp with
  | error fault => rfl
  | ok outcomes =>
    simp only [ok_bind]
    rw [map_mapM]
    simp only [Functor.map_map]

/-! ## The two loops -/

theorem mem_repeatFirst {values : List α} {last : Text}
    (h : repeatFirst p inp = .ok (values, last)) :
    ∀ value ∈ values, ∃ mid rest, Yields p mid (value, rest) := by
  fun_induction repeatFirst p inp generalizing values with
  | case1 => contradiction
  | case2 inp outcomes hrun notFound =>
    cases h
    exact fun value hvalue ↦ absurd hvalue List.not_mem_nil
  | case3 inp outcomes hrun value rest found ih =>
    obtain ⟨more, hmore, hsame⟩ := exists_of_bind_eq_ok h
    cases hsame
    have hvalue : Yields p inp (value, rest) :=
      ⟨outcomes, hrun, List.mem_of_find?_eq_some found⟩
    exact List.forall_mem_cons.mpr ⟨⟨inp, rest, hvalue⟩, ih hmore⟩

/-- The operators in the steps of a chain are operators that were read. -/
theorem operator_of_chainSteps {x : α} {steps : List (Operation α × α)} {rest : Text}
    (h : Yields (chainSteps p op) inp ((x, steps), rest)) :
    ∀ step ∈ steps, ∃ mid after, Yields op mid (step.1, after) := by
  obtain ⟨chains, hrun, hmem⟩ := h
  rw [chainSteps_apply] at hrun
  obtain ⟨outcomes, -, hchains⟩ := exists_of_bind_eq_ok hrun
  obtain ⟨⟨y, start⟩, -, hchain⟩ := mem_mapM hchains hmem
  change _ <$> repeatFirst (chainStep p op) start = _ at hchain
  cases hsteps : repeatFirst (chainStep p op) start with
  | error fault =>
    rw [hsteps] at hchain
    contradiction
  | ok run =>
    rw [hsteps] at hchain
    cases hchain
    intro step hstep
    obtain ⟨mid, after, hyields⟩ := mem_repeatFirst hsteps step hstep
    obtain ⟨between, hf, -⟩ := yields_chainStep hyields
    exact ⟨mid, between, hf⟩

/-- The left chain has folded the steps that it has read so far into its accumulator. -/
theorem foldSteps_eq_map (hop : RaisesOnly (fun _ ↦ False) op) (x : α) (inp : Text) :
    foldSteps (chainStep p op) x inp =
      (fun (steps, last) ↦ (foldLeftValues x steps, last)) <$>
        repeatFirst (chainStep p op) inp := by
  have hstep := unambiguous_chainStep p op
  fun_induction foldSteps (chainStep p op) x inp with
  | case1 x inp fault hrun =>
    rw [repeatFirst, hrun]
    rfl
  | case2 x inp hrun =>
    rw [repeatFirst_of_nil hrun]
    rfl
  | case3 x inp f y rest steps hrun shorter fault hz =>
    obtain ⟨mid, hf, -⟩ := yields_chainStep ⟨_, hrun, List.mem_cons_self⟩
    exact (hop inp f mid hf x y fault hz).elim
  | case4 x inp f y rest steps hrun shorter z hz ih =>
    have hvalue : z = valueOf f x y := by
      rw [valueOf, hz]
      rfl
    rw [ih, repeatFirst_of_single (hstep.single hrun) shorter, hvalue]
    cases repeatFirst (chainStep p op) rest <;> rfl
  | case5 x inp f y rest steps hrun notShorter =>
    rw [repeatFirst_of_not_shorter (hstep.single hrun) notShorter]
    rfl

/-- The right chain folds its steps when it has read all of them. -/
theorem foldRight_eq_map (hop : RaisesOnly (fun _ ↦ False) op) (x : α) (inp : Text) :
    (do
      let (steps, last) ← repeatFirst (chainStep p op) inp
      let value ← foldRight x steps
      pure (value, last)) =
      (fun (steps, last) ↦ (foldRightValues x steps, last)) <$>
        repeatFirst (chainStep p op) inp := by
  cases hrun : repeatFirst (chainStep p op) inp with
  | error fault => rfl
  | ok run =>
    have htotal : ∀ step ∈ run.1, ∀ x y fault, step.1 x y ≠ .error fault := by
      intro step hmem x y fault hfault
      obtain ⟨mid, rest, hstep⟩ := mem_repeatFirst hrun step hmem
      obtain ⟨after, hf, -⟩ := yields_chainStep hstep
      exact hop mid step.1 after hf x y fault hfault
    simp only [ok_bind, foldRight_eq_ok htotal, ok_map, pure_eq_ok]

theorem chainl1_eq_map (hop : RaisesOnly (fun _ ↦ False) op) :
    chainl1 p op = map (fun (x, steps) ↦ foldLeftValues x steps) (chainSteps p op) := by
  funext inp
  rw [← mapM_fold_eq_map foldLeftValues, chainl1]
  simp only [foldSteps_eq_map hop]

theorem chainr1_eq_map (hop : RaisesOnly (fun _ ↦ False) op) :
    chainr1 p op = map (fun (x, steps) ↦ foldRightValues x steps) (chainSteps p op) := by
  funext inp
  rw [← mapM_fold_eq_map foldRightValues, chainr1_apply]
  simp only [foldRight_eq_map hop]

theorem map_chainSteps (fold : α → List (Operation α × α) → α) :
    map (fun (x, steps) ↦ fold x steps) (chainSteps p op) =
      bind p fun x ↦ map (fold x) (first (many (chainStep p op))) := by
  unfold chainSteps
  simp only [map_bind, map_map]

/-- Chains that are folded in two ways are as many as the first operands, and end in the same
places. -/
theorem map_chainSteps_cases (p : Parser α) (op : Parser (Operation α))
    (f g : α × List (Operation α × α) → α) (inp : Text) :
    (∃ fault, map f (chainSteps p op) inp = .error fault ∧
      map g (chainSteps p op) inp = .error fault) ∨
    ∃ outcomes left right, p inp = .ok outcomes ∧ map f (chainSteps p op) inp = .ok left ∧
      map g (chainSteps p op) inp = .ok right ∧ left.map Prod.snd = right.map Prod.snd ∧
      left.length = outcomes.length := by
  cases hrun : chainSteps p op inp with
  | error fault => exact .inl ⟨fault, map_of_error hrun f, map_of_error hrun g⟩
  | ok chains =>
    obtain ⟨outcomes, hp, hlength⟩ := length_of_chainSteps hrun
    refine .inr ⟨outcomes, _, _, hp, map_of_ok hrun f, map_of_ok hrun g, ?_, ?_⟩
    · rw [List.map_map, List.map_map]
      rfl
    · rw [List.length_map, hlength]

/-- If no operator that is read is undefined on operands, both chains are the operand followed by
the preferred repetition of operator and operand, folded from the left and from the right.  They
have an outcome for each outcome of the first operand, with the same rests, and are the same chain
if all operators are one associative operation. -/
theorem chains_eq_folds (p : Parser α) {op : Parser (Operation α)}
    (hop : RaisesOnly (fun _ ↦ False) op) :
    chainl1 p op = bind p (fun x ↦ map (foldLeftValues x)
      (first (many (first (bind op fun f ↦ map (fun y ↦ (f, y)) p))))) ∧
    chainr1 p op = bind p (fun x ↦ map (foldRightValues x)
      (first (many (first (bind op fun f ↦ map (fun y ↦ (f, y)) p))))) ∧
    (∀ inp,
      (∃ fault, chainl1 p op inp = .error fault ∧ chainr1 p op inp = .error fault) ∨
      ∃ outcomes left right, p inp = .ok outcomes ∧ chainl1 p op inp = .ok left ∧
        chainr1 p op inp = .ok right ∧ left.map Prod.snd = right.map Prod.snd ∧
        left.length = outcomes.length) ∧
    (∀ g : α → α → α, (∀ x y z, g (g x y) z = g x (g y z)) →
      (∀ inp f rest, Yields op inp (f, rest) → f = fun x y ↦ .ok (g x y)) →
      chainl1 p op = chainr1 p op) := by
  rw [chainl1_eq_map hop, chainr1_eq_map hop]
  refine ⟨map_chainSteps _, map_chainSteps _, map_chainSteps_cases p op _ _, ?_⟩
  intro g hassoc hg
  funext inp
  apply map_congr_of_yields
  rintro ⟨x, steps⟩ rest hyields
  apply foldLeftValues_eq_foldRightValues hassoc
  intro step hstep
  obtain ⟨mid, after, hf⟩ := operator_of_chainSteps hyields step hstep
  rw [hg mid step.1 after hf]
  rfl

/-- The sign of a sum. -/
def plus : Parser (Operation Nat) := replace (char '+') fun x y ↦ .ok (x + y)

theorem eq_add_of_yields_plus {inp rest : Text} {f : Operation Nat}
    (h : Yields plus inp (f, rest)) : f = fun x y ↦ .ok (x + y) := by
  unfold plus replace at h
  obtain ⟨c, -, hvalue⟩ := yields_map h
  exact hvalue

/-- A sum of digits is the same from both ends. -/
theorem chains_eq_folds_sum :
    RaisesOnly (fun _ ↦ False) plus ∧
    chainl1 (map digitValue digit) plus = bind (map digitValue digit) (fun x ↦
      map (foldLeftValues x)
        (first (many (first (bind plus fun f ↦ map (fun y ↦ (f, y)) (map digitValue digit)))))) ∧
    chainl1 (map digitValue digit) plus = chainr1 (map digitValue digit) plus ∧
    chainr1 (map digitValue digit) plus "1+2+4+x".toList = .ok [(7, "+x".toList)] := by
  have hop : RaisesOnly (fun _ ↦ False) plus := by
    intro inp f rest hf x y fault hfault
    rw [eq_add_of_yields_plus hf] at hfault
    contradiction
  obtain ⟨hleft, -, -, hsame⟩ := chains_eq_folds (map digitValue digit) hop
  have hchains := hsame (· + ·) Nat.add_assoc fun _ _ _ ↦ eq_add_of_yields_plus
  have hrun : chainr1 (map digitValue digit) plus "1+2+4+x".toList = .ok [(7, "+x".toList)] :=
    eq_ok_of_toOption (by decide +kernel)
  exact ⟨hop, hleft, hchains, hrun⟩

end Parser

end Backtrack
