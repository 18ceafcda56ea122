import Backtrack.Proofs.Suffix

/-!
# What a recursive rule is used on

The body of a rule is local if what it does on a text depends on the rule only at texts that are
left after something was read, which are suffixes of the text and shorter than it.  A body is local
if it reads a token before each use of the rule; there is one lemma for each combinator.

The main statements are about a rule with a local body: it does the same if each activation is
refused the rule on all other texts, and on a text with `n` characters every bound of more than `n`
on the open activations leads to the same result.  `BoundedNesting` puts the two together.
-/

namespace Backtrack

/-! ## Runs of a function that agree on a list -/

theorem gather_congr {α β : Type} {f g : α → Except Fault (List β)} {as : List α}
    (h : ∀ a ∈ as, f a = g a) : gather f as = gather g as := by
  induction as with
  | nil => rfl
  | cons a as ih =>
    have htail := ih fun b hb ↦ h b (List.mem_cons_of_mem a hb)
    rw [gather_cons, gather_cons, h a List.mem_cons_self, htail]

theorem mapM_congr {α β : Type} {f g : α → Except Fault β} {as : List α}
    (h : ∀ a ∈ as, f a = g a) : as.mapM f = as.mapM g := by
  induction as with
  | nil => rfl
  | cons a as ih =>
    have htail := ih fun b hb ↦ h b (List.mem_cons_of_mem a hb)
    rw [List.mapM_cons, List.mapM_cons, h a List.mem_cons_self, htail]

namespace Parser

variable {α β γ : Type}

/-- What can be left of a text after something was read. -/
def Behind (inp rest : Text) : Prop := rest <:+ inp ∧ rest.length < inp.length

instance (inp rest : Text) : Decidable (Behind inp rest) :=
  inferInstanceAs (Decidable (rest <:+ inp ∧ rest.length < inp.length))

/-- A kind of texts that parsers which leave suffixes do not lead out of. -/
def Closed (on : Text → Prop) : Prop := ∀ inp rest, on inp → rest <:+ inp → on rest

/-- Two parsers that run in the same way on the texts of a kind. -/
def Alike (on : Text → Prop) (p q : Parser α) : Prop := ∀ inp, on inp → p inp = q inp

/-- Every outcome of the parser reads something. -/
def Consumes (p : Parser α) : Prop := ∀ inp value rest, Yields p inp (value, rest) → Behind inp rest

theorem closed_suffix (text : Text) : Closed (· <:+ text) :=
  fun _ _ hinp hrest ↦ hrest.trans hinp

theorem closed_behind (text : Text) : Closed (Behind text) := fun _ _ hinp hrest ↦
  ⟨hrest.trans hinp.1, Nat.lt_of_le_of_lt hrest.length_le hinp.2⟩

theorem Behind.of_suffix {text inp rest : Text} (h : Behind inp rest) (hinp : inp <:+ text) :
    Behind text rest := ⟨h.1.trans hinp, Nat.lt_of_lt_of_le h.2 hinp.length_le⟩

theorem consumes_symbol {text : Text} (h : text ≠ []) : Consumes (symbol text) := by
  intro inp value rest hyields
  refine ⟨leavesSuffixes_symbol text inp value rest hyields, ?_⟩
  by_cases hprefix : text.isPrefixOf inp
  · have hread : symbol text inp = .ok [(text, skipLayout (inp.drop text.length))] := by
      rw [symbol_apply, if_pos hprefix]
    cases eq_of_yields_single hread hyields
    have hinp := (List.isPrefixOf_iff_prefix.mp hprefix).length_le
    have htext := List.length_pos_iff.mpr h
    have hskip := length_skipLayout_le (inp.drop text.length)
    rw [List.length_drop] at hskip
    omega
  · have hnone : symbol text inp = .ok [] := by
      rw [symbol_apply, if_neg hprefix]
    exact absurd hyields (not_yields_of_nil hnone _)

/-! ## Parsers that run in the same way -/

section Congruence

variable {on : Text → Prop} {p p' : Parser α}

theorem Alike.refl (p : Parser α) : Alike on p p := fun _ _ ↦ rfl

theorem Alike.map (h : Alike on p p') (f : α → β) : Alike on (p.map f) (p'.map f) := by
  intro inp hinp
  rw [Parser.map, Parser.map, h inp hinp]

theorem Alike.first (h : Alike on p p') : Alike on (first p) (first p') := by
  intro inp hinp
  rw [Parser.first, Parser.first, h inp hinp]

theorem bind_apply_congr {inp : Text} (h : p inp = p' inp) {f f' : α → Parser β}
    (hf : ∀ value rest, Yields p inp (value, rest) → f value rest = f' value rest) :
    p.bind f inp = p'.bind f' inp := by
  rw [bind_apply, bind_apply, ← h]
  cases hrun : p inp with
  | error fault => rfl
  | ok outcomes =>
    apply gather_congr
    intro outcome hmem
    exact hf outcome.1 outcome.2 ⟨outcomes, hrun, hmem⟩

theorem Alike.bind (hon : Closed on) (hsuffix : LeavesSuffixes p) (h : Alike on p p')
    {f f' : α → Parser β} (hf : ∀ value, Alike on (f value) (f' value)) :
    Alike on (p.bind f) (p'.bind f') := by
  intro inp hinp
  apply bind_apply_congr (h inp hinp)
  intro value rest hyields
  have hrest : rest <:+ inp := hsuffix inp value rest hyields
  exact hf value rest (hon inp rest hinp hrest)

/-- What is run after a parser that reads something is run behind it. -/
theorem bind_congr_of_consumes (hp : Consumes p) {f f' : α → Parser β} {inp : Text}
    (hf : ∀ value, Alike (Behind inp) (f value) (f' value)) : p.bind f inp = p.bind f' inp :=
  bind_apply_congr rfl fun value rest hyields ↦ hf value rest (hp inp value rest hyields)

theorem repeatFirst_eq (p : Parser α) (inp : Text) :
    repeatFirst p inp = (do
      let outcomes ← p inp
      match firstConsuming inp outcomes with
      | none => pure ([], inp)
      | some (value, rest) =>
        let (values, last) ← repeatFirst p rest
        pure (value :: values, last)) := by
  rw [repeatFirst]
  cases p inp with
  | error fault => rfl
  | ok outcomes =>
    simp only [ok_bind]
    split
    case h_1 none => rw [none]; rfl
    case h_2 some => rw [some]

theorem repeatFirst_congr (hon : Closed on) (hsuffix : LeavesSuffixes p) (h : Alike on p p')
    {inp : Text} (hinp : on inp) : repeatFirst p inp = repeatFirst p' inp := by
  fun_induction repeatFirst p inp with
  | case1 inp fault hrun =>
    rw [repeatFirst_eq, ← h inp hinp, hrun]
    rfl
  | case2 inp outcomes hrun notFound =>
    rw [repeatFirst_eq, ← h inp hinp, hrun, ok_bind, notFound]
    rfl
  | case3 inp outcomes hrun value rest found ih =>
    have hrest : rest <:+ inp :=
      hsuffix inp value rest ⟨outcomes, hrun, List.mem_of_find?_eq_some found⟩
    rw [repeatFirst_eq p', ← h inp hinp, hrun, ok_bind, found, ih (hon inp rest hinp hrest)]

section Chains

variable {op : Parser (Operation α)}

theorem Alike.chainStep (hon : Closed on) (hop : LeavesSuffixes op) (h : Alike on p p') :
    Alike on (chainStep p op) (chainStep p' op) :=
  (Alike.bind hon hop (Alike.refl op) fun f ↦ h.map fun y ↦ (f, y)).first

theorem foldSteps_congr {step step' : Parser (Operation α × α)} (hon : Closed on)
    (hsuffix : LeavesSuffixes step) (h : Alike on step step') (x : α) {inp : Text}
    (hinp : on inp) : foldSteps step x inp = foldSteps step' x inp := by
  fun_induction foldSteps step x inp with
  | case1 x inp fault hrun => rw [foldSteps, ← h inp hinp, hrun]
  | case2 x inp hrun => rw [foldSteps, ← h inp hinp, hrun]
  | case3 x inp f y rest steps hrun shorter fault hz =>
    rw [foldSteps, ← h inp hinp, hrun]
    simp only [if_pos shorter, hz]
  | case4 x inp f y rest steps hrun shorter z hz ih =>
    have hrest : rest <:+ inp := hsuffix inp (f, y) rest ⟨_, hrun, List.mem_cons_self⟩
    rw [foldSteps.eq_def step' x inp, ← h inp hinp, hrun]
    simp only [if_pos shorter, hz]
    exact ih (hon inp rest hinp hrest)
  | case5 x inp f y rest steps hrun notShorter =>
    rw [foldSteps, ← h inp hinp, hrun]
    simp only [if_neg notShorter]

/-- Two chains run in the same way if their operands do, and if they go on in the same way. -/
theorem mapM_outcomes_congr {inp : Text} (h : p inp = p' inp)
    {f f' : α × Text → Except Fault (α × Text)}
    (hf : ∀ x rest, Yields p inp (x, rest) → f (x, rest) = f' (x, rest)) :
    (p inp >>= fun outcomes ↦ outcomes.mapM f) = (p' inp >>= fun outcomes ↦ outcomes.mapM f') := by
  rw [← h]
  cases hrun : p inp with
  | error fault => rfl
  | ok outcomes =>
    apply mapM_congr
    intro outcome hmem
    exact hf outcome.1 outcome.2 ⟨outcomes, hrun, hmem⟩

theorem Alike.chainl1 (hon : Closed on) (hsuffix : LeavesSuffixes p) (hop : LeavesSuffixes op)
    (h : Alike on p p') : Alike on (chainl1 p op) (chainl1 p' op) := by
  intro inp hinp
  apply mapM_outcomes_congr (h inp hinp)
  intro x rest hyields
  have hrest : on rest := hon inp rest hinp (hsuffix inp x rest hyields)
  exact foldSteps_congr hon (hsuffix.chainStep hop) (h.chainStep hon hop) x hrest

theorem Alike.chainr1 (hon : Closed on) (hsuffix : LeavesSuffixes p) (hop : LeavesSuffixes op)
    (h : Alike on p p') : Alike on (chainr1 p op) (chainr1 p' op) := by
  intro inp hinp
  rw [chainr1_apply, chainr1_apply]
  apply mapM_outcomes_congr (h inp hinp)
  intro x rest hyields
  have hrest : on rest := hon inp rest hinp (hsuffix inp x rest hyields)
  simp only [repeatFirst_congr hon (hsuffix.chainStep hop) (h.chainStep hon hop) hrest]

end Chains

end Congruence

/-! ## Local bodies -/

/-- What the body does on a text depends on the rule only behind something that was read. -/
def Local (body : Parser α → Parser β) : Prop :=
  ∀ q q' inp, LeavesSuffixes q → Alike (Behind inp) q q' → body q inp = body q' inp

/-- A body that leaves suffixes if the rule does. -/
def KeepsSuffixes (body : Parser α → Parser β) : Prop :=
  ∀ q, LeavesSuffixes q → LeavesSuffixes (body q)

section Bodies

variable {body : Parser α → Parser β}

theorem local_const (p : Parser β) : Local fun _ : Parser α ↦ p := fun _ _ _ _ _ ↦ rfl

theorem Local.alike (h : Local body) {q q' : Parser α} {inp : Text} (hq : LeavesSuffixes q)
    (hqq' : Alike (Behind inp) q q') : Alike (· <:+ inp) (body q) (body q') :=
  fun rest hrest ↦ h q q' rest hq fun text htext ↦ hqq' text (htext.of_suffix hrest)

theorem local_firstOf {bodies : List (Parser α → Parser β)} (h : ∀ body ∈ bodies, Local body) :
    Local fun q ↦ firstOf (bodies.map (· q)) := by
  intro q q' inp hq hqq'
  induction bodies with
  | nil => rfl
  | cons body bodies ih =>
    have hhead : body q inp = body q' inp := h body List.mem_cons_self q q' inp hq hqq'
    have htail := ih fun other hother ↦ h other (List.mem_cons_of_mem body hother)
    exact firstOf_cons_congr hhead htail

theorem Local.chainl1 (h : Local body) (hsuffix : KeepsSuffixes body)
    {op : Parser (Operation β)} (hop : LeavesSuffixes op) : Local fun q ↦ chainl1 (body q) op :=
  fun q _ inp hq hqq' ↦ (h.alike hq hqq').chainl1 (closed_suffix inp) (hsuffix q hq) hop inp
    (List.suffix_refl inp)

theorem Local.chainr1 (h : Local body) (hsuffix : KeepsSuffixes body)
    {op : Parser (Operation β)} (hop : LeavesSuffixes op) : Local fun q ↦ chainr1 (body q) op :=
  fun q _ inp hq hqq' ↦ (h.alike hq hqq').chainr1 (closed_suffix inp) (hsuffix q hq) hop inp
    (List.suffix_refl inp)

theorem local_middle {left : Parser β} (hleft : Consumes left) (right : Parser γ) :
    Local fun q : Parser α ↦ middle left q right := by
  intro q q' inp hq hqq'
  simp only [middle_eq_bind]
  apply bind_congr_of_consumes hleft
  intro _
  exact Alike.bind (closed_behind inp) hq hqq' fun value ↦ Alike.refl (right.replace value)

end Bodies

/-! ## Rules with local bodies -/

/-- The rule where it is used behind something that was read, and a fault elsewhere. -/
def onlyBehind (inp : Text) (q : Parser α) : Parser α := fun rest ↦
  if Behind inp rest then q rest else .error .nestingTooDeep

/-- The body, refused the rule on every text but those that are left after something was read. -/
def guarded (body : Parser α → Parser α) : Parser α → Parser α := fun q inp ↦
  body (onlyBehind inp q) inp

theorem alike_onlyBehind (inp : Text) (q : Parser α) : Alike (Behind inp) q (onlyBehind inp q) :=
  fun _ hrest ↦ (if_pos hrest).symm

section Rules

variable {body : Parser α → Parser α}

/-- More than as many activations as the text has characters are as good as any number of them. -/
theorem nested_congr (hlocal : Local body) (hsuffix : KeepsSuffixes body) {m n : Nat} {inp : Text}
    (hm : inp.length < m) (hn : inp.length < n) : nested body m inp = nested body n inp := by
  induction m generalizing n inp with
  | zero => omega
  | succ m ih =>
    cases n with
    | zero => omega
    | succ n =>
      rw [nested_succ, nested_succ]
      apply hlocal _ _ inp (leavesSuffixes_nested hsuffix m)
      intro rest hrest
      have hlt := hrest.2
      exact ih (by omega) (by omega)

/-- Each activation uses the rule only on what is left after something was read. -/
theorem nested_guarded (hlocal : Local body) (hsuffix : KeepsSuffixes body) (n : Nat) :
    nested (guarded body) n = nested body n := by
  induction n with
  | zero => rfl
  | succ n ih =>
    funext inp
    rw [nested_succ, nested_succ, ih]
    exact (hlocal _ _ inp (leavesSuffixes_nested hsuffix n) (alike_onlyBehind inp _)).symm

/-- The run of a rule on a text ends, and needs no more open activations than the text has
characters, and one. -/
structure BoundedNesting (body : Parser α → Parser α) (text : Text) : Prop where
  /-- The bound on the open activations is not met. -/
  ends : recursive body text ≠ .error .nestingTooDeep
  /-- More activations change nothing. -/
  stable (extra : Nat) : nested body (text.length + 1 + extra) text = recursive body text
  /-- Each activation inside another one is on a shorter suffix of the text of that one. -/
  shorter (extra : Nat) :
    nested (guarded body) (text.length + 1 + extra) text = recursive body text
  /-- The layout in front of the text does not count. -/
  parse (extra : Nat) :
    parse (nested (guarded body) (text.length + 1 + extra)) text = parse (recursive body) text

theorem Local.boundedNesting (hlocal : Local body) (hsuffix : KeepsSuffixes body) {text : Text}
    (ends : recursive body text ≠ .error .nestingTooDeep) : BoundedNesting body text := by
  have stable {inp : Text} (hinp : inp.length ≤ text.length) (extra : Nat) :
      nested body (text.length + 1 + extra) inp = recursive body inp :=
    nested_congr hlocal hsuffix (by omega) (Nat.lt_succ_self _)
  have hlayout := length_skipLayout_le text
  refine ⟨ends, stable (Nat.le_refl _), fun extra ↦ ?_, fun extra ↦ ?_⟩
  · rw [nested_guarded hlocal hsuffix, stable (Nat.le_refl _)]
  · rw [nested_guarded hlocal hsuffix, parse_apply, parse_apply, stable hlayout]

end Rules

end Parser

end Backtrack
