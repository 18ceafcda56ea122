import Backtrack.Proofs.ChainFold

/-!
# The laws of sequencing, with faults

Parsers may be ambiguous, and so may the parsers that go on from their values; any run of any of them
may be abandoned.  The main statement is that the laws of a monad hold for all of them.  The laws of
`succeed` and of `map` hold exactly, with the same fault.  Associativity and distribution over a
choice hold up to the fault: both sides end with the same outcomes, or both are abandoned.  The two
sides make the same runs in different orders, so each may meet a fault of its own first.

Both of the latter are one fact about `gather`: gathering what was gathered, and gathering at once.
-/

namespace Backtrack

variable {α β γ : Type}

/-- Two runs that end with the same list, or that are both abandoned, for whatever reason. -/
inductive SameUpToFault : Except Fault (List α) → Except Fault (List α) → Prop
  | ok (as : List α) : SameUpToFault (.ok as) (.ok as)
  | error (fault fault' : Fault) : SameUpToFault (.error fault) (.error fault')

/-! ## Gathering in two stages -/

theorem gather_map (f : β → Except Fault (List γ)) (g : α → β) (as : List α) :
    gather f (as.map g) = gather (fun a ↦ f (g a)) as := by
  induction as with
  | nil => rfl
  | cons a as ih => rw [List.map_cons, gather_cons, gather_cons, ih]

/-- One more list in front, which is gathered from before or after the others are known. -/
theorem SameUpToFault.append {g : β → Except Fault (List γ)} (front : List β)
    {back : Except Fault (List β)} {found : Except Fault (List γ)}
    (h : SameUpToFault (back >>= gather g) found) :
    SameUpToFault
      ((do
        let bs ← back
        pure (front ++ bs)) >>= gather g)
      (do
        let cs ← gather g front
        let ds ← found
        pure (cs ++ ds)) := by
  cases back with
  | error fault =>
    cases h with
    | error _ fault' =>
      cases gather g front with
      | error other => exact .error fault other
      | ok cs => exact .error fault fault'
  | ok bs =>
    simp only [ok_bind, pure_eq_ok] at h ⊢
    rw [gather_append]
    cases gather g front with
    | error fault => exact .error fault fault
    | ok cs =>
      generalize gather g bs = ds at h
      cases h with
      | ok ds => exact .ok (cs ++ ds)
      | error fault fault' => exact .error fault fault'

theorem gather_gather (f : α → Except Fault (List β)) (g : β → Except Fault (List γ))
    (as : List α) :
    SameUpToFault (gather f as >>= gather g) (gather (fun a ↦ f a >>= gather g) as) := by
  induction as with
  | nil => exact .ok []
  | cons a as ih =>
    rw [gather_cons, gather_cons]
    cases f a with
    | error fault => exact .error fault fault
    | ok front => exact ih.append front

namespace Parser

/-- Applies to every value that `p` yields an operation that may be undefined on it. -/
def mapExcept (u : α → Except Fault β) (p : Parser α) : Parser β := fun inp ↦ do
  let outcomes ← p inp
  outcomes.mapM fun (value, rest) ↦ do
    let result ← u value
    pure (result, rest)

/-! ## The laws that hold with the same fault -/

theorem succeed_bind (value : α) (f : α → Parser β) : (succeed value).bind f = f value := by
  funext inp
  exact bind_of_single (succeed_apply value inp) f

theorem bind_succeed (p : Parser α) : p.bind succeed = p := by
  funext inp
  cases hrun : p inp with
  | error fault => exact bind_of_error hrun succeed
  | ok outcomes =>
    rw [bind_of_ok hrun]
    calc
      gather (fun (value, rest) ↦ succeed value rest) outcomes = .ok (outcomes.map id) :=
        gather_ok_singleton id outcomes
      _ = .ok outcomes := by rw [List.map_id]

theorem mapExcept_eq_bind (u : α → Except Fault β) (p : Parser α) :
    p.mapExcept u = p.bind fun value ↦ ofExcept (u value) := by
  funext inp
  rw [bind_apply, mapExcept]
  congr 1
  funext outcomes
  rw [← gather_singletons]
  congr 1
  funext ⟨value, rest⟩
  change (fun outcome ↦ [outcome]) <$> (u value >>= fun result ↦ pure (result, rest)) =
    u value >>= fun result ↦ pure [(result, rest)]
  cases u value with
  | error fault => rfl
  | ok result => rfl

theorem mapExcept_ok (h : α → β) (p : Parser α) : p.mapExcept (fun v ↦ .ok (h v)) = p.map h := by
  funext inp
  rw [mapExcept_eq_bind, bind_apply, map]
  congr 1
  funext outcomes
  exact gather_ok_singleton (fun outcome ↦ (h outcome.1, outcome.2)) outcomes

theorem map_eq_bind (h : α → β) (p : Parser α) : p.map h = p.bind fun v ↦ succeed (h v) := by
  rw [← mapExcept_ok, mapExcept_eq_bind]
  rfl

/-! ## The laws that hold up to the fault -/

theorem bind_bind (p : Parser α) (f : α → Parser β) (g : β → Parser γ) (inp : Text) :
    SameUpToFault ((p.bind f).bind g inp) (p.bind (fun value ↦ (f value).bind g) inp) := by
  rw [bind_apply, bind_apply, bind_apply]
  cases p inp with
  | error fault => exact .error fault fault
  | ok outcomes => exact gather_gather _ _ outcomes

theorem anyOf_bind (ps : List (Parser α)) (f : α → Parser β) (inp : Text) :
    SameUpToFault ((anyOf ps).bind f inp) (anyOf (ps.map (·.bind f)) inp) := by
  have hright : anyOf (ps.map (·.bind f)) inp = gather (fun p ↦ p.bind f inp) ps :=
    gather_map _ _ ps
  rw [bind_apply, hright]
  exact gather_gather _ _ ps

/-- The laws of a monad for parsers that may be ambiguous and may fault: those of `succeed` and `map`
hold with the same fault, associativity and distribution over a choice up to the fault. -/
theorem monad_laws (p : Parser α) (f : α → Parser β) (g : β → Parser γ) (inp : Text) :
    (∀ value, (succeed value).bind f inp = f value inp) ∧
    p.bind succeed inp = p inp ∧
    (∀ h : α → β, p.map h inp = p.bind (fun value ↦ succeed (h value)) inp) ∧
    (∀ u : α → Except Fault β, p.mapExcept u inp = p.bind (fun value ↦ ofExcept (u value)) inp) ∧
    SameUpToFault ((p.bind f).bind g inp) (p.bind (fun value ↦ (f value).bind g) inp) ∧
    ∀ ps : List (Parser α), SameUpToFault ((anyOf ps).bind f inp) (anyOf (ps.map (·.bind f)) inp) := by
  refine ⟨?_, ?_, ?_, ?_, bind_bind p f g inp, ?_⟩
  · intro value
    rw [succeed_bind]
  · rw [bind_succeed]
  · intro h
    rw [map_eq_bind]
  · intro u
    rw [mapExcept_eq_bind]
  · intro ps
    exact anyOf_bind ps f inp

/-- The two sides of associativity may end in different faults. -/
example :
    let p : Parser Bool := anyOf [succeed true, succeed false]
    let f : Bool → Parser Unit := fun b ↦ if b then succeed () else fun _ ↦ .error .overflow
    let g : Unit → Parser Unit := fun _ _ ↦ .error .divisionByZero
    (p.bind f).bind g [] = .error .overflow ∧
      p.bind (fun b ↦ (f b).bind g) [] = .error .divisionByZero := ⟨rfl, rfl⟩

end Parser

end Backtrack
