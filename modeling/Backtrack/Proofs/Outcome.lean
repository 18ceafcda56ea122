import Backtrack.Parser.Chain

/-!
# Runs with at most one outcome

How the combinators run on a parser that has no outcome on the text at hand, or exactly one.
-/

namespace Backtrack

theorem exists_of_bind_eq_ok {ε α β : Type} {x : Except ε α} {f : α → Except ε β} {b : β}
    (h : x >>= f = .ok b) : ∃ a, x = .ok a ∧ f a = .ok b := by
  cases x with
  | error e => contradiction
  | ok a => exact ⟨a, rfl, h⟩

theorem error_or_ok_of_bind_eq_error {ε α β : Type} {x : Except ε α} {f : α → Except ε β} {e : ε}
    (h : x >>= f = .error e) : x = .error e ∨ ∃ a, x = .ok a ∧ f a = .error e := by
  cases x with
  | error other =>
    cases h
    exact .inl rfl
  | ok a => exact .inr ⟨a, rfl, h⟩

theorem gather_singleton {α β : Type} (f : α → Except Fault (List β)) (a : α) :
    gather f [a] = f a := by
  rw [gather_cons, gather_nil]
  cases f a <;> simp

theorem gather_ok_singleton {α β : Type} (f : α → β) (as : List α) :
    gather (fun a ↦ .ok [f a]) as = .ok (as.map f) := by
  induction as with
  | nil => rfl
  | cons a as ih => rw [gather_cons, ih]; rfl

theorem exists_of_mapM_eq_error {α β : Type} {f : α → Except Fault β} {as : List α} {fault : Fault}
    (h : as.mapM f = .error fault) : ∃ a ∈ as, f a = .error fault := by
  induction as with
  | nil => contradiction
  | cons a as ih =>
    rw [List.mapM_cons] at h
    rcases error_or_ok_of_bind_eq_error h with hhead | ⟨b, -, hrest⟩
    · exact ⟨a, List.mem_cons_self, hhead⟩
    · rcases error_or_ok_of_bind_eq_error hrest with htail | ⟨bs, -, hok⟩
      · obtain ⟨c, hc, hfault⟩ := ih htail
        exact ⟨c, List.mem_cons_of_mem a hc, hfault⟩
      · contradiction

theorem exists_of_gather_eq_error {α β : Type} {f : α → Except Fault (List β)} {as : List α}
    {fault : Fault} (h : gather f as = .error fault) : ∃ a ∈ as, f a = .error fault := by
  unfold gather at h
  cases hrun : as.mapM f with
  | error other =>
    rw [hrun] at h
    cases h
    exact exists_of_mapM_eq_error hrun
  | ok found =>
    rw [hrun] at h
    contradiction

namespace Parser

variable {α β : Type} {p : Parser α} {inp rest : Text} {value : α}

theorem bind_of_nil (h : p inp = .ok []) (f : α → Parser β) : p.bind f inp = .ok [] := by
  rw [bind_of_ok h, gather_nil]

theorem bind_of_single (h : p inp = .ok [(value, rest)]) (f : α → Parser β) :
    p.bind f inp = f value rest := by
  rw [bind_of_ok h, gather_singleton]

theorem map_of_nil (h : p inp = .ok []) (f : α → β) : p.map f inp = .ok [] := map_of_ok h f

theorem map_of_single (h : p inp = .ok [(value, rest)]) (f : α → β) :
    p.map f inp = .ok [(f value, rest)] := map_of_ok h f

/-- The outcomes of a run that computes `result` and leaves `rest`. -/
def only (result : Except Fault α) (rest : Text) : Except Fault (Outcomes α) :=
  (fun value ↦ [(value, rest)]) <$> result

@[simp]
theorem only_ok (value : α) (rest : Text) : only (.ok value) rest = .ok [(value, rest)] := rfl

@[simp]
theorem only_error (fault : Fault) (rest : Text) :
    only (.error fault : Except Fault α) rest = .error fault := rfl

theorem eq_of_singleton_eq_only {outcome : Except Fault (α × Text)} {result : Except Fault α}
    (h : (fun o ↦ [o]) <$> outcome = only result rest) :
    outcome = (fun value ↦ (value, rest)) <$> result := by
  cases outcome with
  | error fault =>
    cases result with
    | error other => cases h; rfl
    | ok value => contradiction
  | ok pair =>
    cases result with
    | error other => contradiction
    | ok value => cases h; rfl

theorem firstOf_singleton_of_only {result : Except Fault α} (h : p inp = only result rest) :
    firstOf [p] inp = only result rest := by
  cases result with
  | error fault => exact firstOf_cons_of_error h []
  | ok value => exact firstOf_cons_of_cons h []

theorem middle_eq_bind {γ : Type} (left : Parser β) (mid : Parser α) (right : Parser γ) :
    middle left mid right = left.bind fun _ ↦ mid.bind fun x ↦ right.replace x := rfl

theorem middle_of_only {γ : Type} {left : Parser β} {right : Parser γ} {x : β} {y : γ}
    {mid close : Text} {result : Except Fault α} (hleft : left inp = .ok [(x, mid)])
    (hp : p mid = only result close) (hright : right close = .ok [(y, rest)]) :
    middle left p right inp = only result rest := by
  rw [middle_eq_bind, bind_of_single hleft]
  cases result with
  | error fault => exact bind_of_error hp _
  | ok value =>
    rw [bind_of_single hp]
    exact map_of_single hright _

theorem repeatFirst_of_nil (h : p inp = .ok []) : repeatFirst p inp = .ok ([], inp) := by
  rw [repeatFirst, h]
  rfl

theorem repeatFirst_of_single (h : p inp = .ok [(value, rest)])
    (shorter : rest.length < inp.length) :
    repeatFirst p inp = (do
      let (values, last) ← repeatFirst p rest
      pure (value :: values, last)) := by
  have found : firstConsuming inp [(value, rest)] = some (value, rest) := by
    simp [firstConsuming, shorter]
  rw [repeatFirst, h]
  simp only
  split
  case h_1 none => rw [found] at none; contradiction
  case h_2 same =>
    rw [found, Option.some.injEq, Prod.mk.injEq] at same
    rw [same.1, same.2]

end Parser

end Backtrack
