import Backtrack.Proofs.Layout

/-!
# Texts as lists of tokens

A `Lexicon` says how the token at the front of a text is read.  `tokens?` reads a whole text with
it, and drops the layout in front of each token and at the end.  `Reads` is the same on a front part
of a text, seen from places without layout in front, which are the places where a token parser stops.

The main statements are that reading a whole text is the case of `Reads` that leaves nothing, that
`Reads` splits where its list of tokens splits, and how `accept`, the parser of a single token, runs.
-/

namespace Backtrack

variable {τ α : Type}

/-- How the token at the front of a text is read; a token has at least one character. -/
structure Lexicon (τ : Type) where
  read : Text → Option (τ × Text)
  shorter {text rest : Text} {token : τ} (h : read text = some (token, rest)) :
    rest.length < text.length

namespace Lexicon

variable (L : Lexicon τ)

/-- The tokens of a text, if it consists of tokens and layout. -/
def tokens? (text : Text) : Option (List τ) :=
  match _hskip : skipLayout text with
  | [] => some []
  | c :: rest =>
    match _hread : L.read (c :: rest) with
    | none => none
    | some (token, after) => (tokens? after).map (token :: ·)
termination_by text.length
decreasing_by
  have hlt := L.shorter _hread
  rw [← _hskip] at hlt
  exact Nat.lt_of_lt_of_le hlt (length_skipLayout_le text)

/-- The token at the front of a text and what is left after it and the layout behind it. -/
def next (text : Text) : Option (τ × Text) :=
  (L.read text).map fun (token, rest) ↦ (token, skipLayout rest)

/-- A text starts with these tokens, and `rest` is left after them. -/
def Reads : Text → List τ → Text → Prop
  | text, [], rest => text = rest
  | text, token :: tokens, rest => ∃ mid, L.next text = some (token, mid) ∧ Reads mid tokens rest

variable {L} {text rest mid : Text} {token : τ} {tokens us : List τ}

theorem next_of_read (h : L.read text = some (token, rest)) :
    L.next text = some (token, skipLayout rest) := by
  simp only [next, h, Option.map_some]

theorem next_eq_some_iff :
    L.next text = some (token, rest) ↔
      ∃ after, L.read text = some (token, after) ∧ skipLayout after = rest := by
  constructor
  · intro h
    obtain ⟨⟨first, after⟩, hread, same⟩ := Option.map_eq_some_iff.mp h
    cases same
    exact ⟨after, hread, rfl⟩
  · rintro ⟨after, hread, rfl⟩
    exact next_of_read hread

theorem next_nil : L.next [] = none := by
  cases h : L.read [] with
  | none => simp [next, h]
  | some pair => exact absurd (L.shorter h) (Nat.not_lt_zero _)

theorem length_of_next (h : L.next text = some (token, rest)) : rest.length < text.length := by
  obtain ⟨after, hread, rfl⟩ := next_eq_some_iff.mp h
  exact Nat.lt_of_le_of_lt (length_skipLayout_le after) (L.shorter hread)

theorem skipLayout_of_next (h : L.next text = some (token, rest)) : skipLayout rest = rest := by
  obtain ⟨after, -, rfl⟩ := next_eq_some_iff.mp h
  exact skipLayout_skipLayout after

theorem next_unique {other : τ} (h : L.next text = some (token, rest))
    (hother : L.next text = some (other, mid)) : other = token ∧ mid = rest := by
  rw [h, Option.some.injEq, Prod.mk.injEq] at hother
  exact ⟨hother.1.symm, hother.2.symm⟩

theorem next_ne_of_next (h : L.next text = some (token, mid)) {other : τ} (hne : token ≠ other) :
    ∀ rest, L.next text ≠ some (other, rest) := fun _ hother ↦ hne (next_unique h hother).1.symm

@[simp]
theorem reads_nil : L.Reads text [] rest ↔ text = rest := Iff.rfl

@[simp]
theorem reads_cons :
    L.Reads text (token :: tokens) rest ↔
      ∃ mid, L.next text = some (token, mid) ∧ L.Reads mid tokens rest := Iff.rfl

theorem reads_singleton : L.Reads text [token] rest ↔ L.next text = some (token, rest) := by
  simp

theorem reads_append :
    L.Reads text (tokens ++ us) rest ↔ ∃ mid, L.Reads text tokens mid ∧ L.Reads mid us rest := by
  induction tokens generalizing text with
  | nil => simp
  | cons token tokens ih =>
    simp only [List.cons_append, reads_cons, ih]
    constructor
    · rintro ⟨first, hfirst, mid, hmid, hrest⟩
      exact ⟨mid, ⟨first, hfirst, hmid⟩, hrest⟩
    · rintro ⟨mid, ⟨first, hfirst, hmid⟩, hrest⟩
      exact ⟨first, hfirst, mid, hmid, hrest⟩

theorem length_of_reads (h : L.Reads text tokens rest) :
    rest.length + tokens.length ≤ text.length := by
  induction tokens generalizing text with
  | nil =>
    rw [reads_nil] at h
    simp [h]
  | cons token tokens ih =>
    obtain ⟨mid, hnext, hmid⟩ := h
    have hlt := length_of_next hnext
    have hle := ih hmid
    rw [List.length_cons]
    omega

theorem tokens?_of_nil (h : skipLayout text = []) : L.tokens? text = some [] := by
  rw [tokens?]
  split
  · rfl
  · next hskip => rw [h] at hskip; contradiction

theorem tokens?_of_ne_nil (h : skipLayout text ≠ []) :
    L.tokens? text =
      (L.read (skipLayout text)).bind fun (token, after) ↦ (L.tokens? after).map (token :: ·) := by
  rw [tokens?]
  split
  · next hskip => exact absurd hskip h
  · next hskip =>
    rw [hskip]
    split <;> next hread => rw [hread]; rfl

/-- A whole text has these tokens if it can be read to its end by them. -/
theorem tokens?_eq_some_iff :
    L.tokens? text = some tokens ↔ L.Reads (skipLayout text) tokens [] := by
  induction tokens generalizing text with
  | nil =>
    by_cases hskip : skipLayout text = []
    · simp [tokens?_of_nil hskip, hskip]
    · rw [tokens?_of_ne_nil hskip]
      simp [hskip, Option.bind_eq_some_iff]
  | cons token tokens ih =>
    by_cases hskip : skipLayout text = []
    · simp [tokens?_of_nil hskip, hskip, next_nil]
    · rw [tokens?_of_ne_nil hskip, reads_cons, Option.bind_eq_some_iff]
      constructor
      · rintro ⟨⟨first, after⟩, hread, htokens⟩
        obtain ⟨others, hothers, same⟩ := Option.map_eq_some_iff.mp htokens
        cases same
        exact ⟨skipLayout after, next_of_read hread, ih.mp hothers⟩
      · rintro ⟨mid, hnext, hreads⟩
        obtain ⟨after, hread, rfl⟩ := next_eq_some_iff.mp hnext
        exact ⟨(token, after), hread, Option.map_eq_some_iff.mpr ⟨tokens, ih.mpr hreads, rfl⟩⟩

/-! ## The parser of a single token -/

variable {choose : τ → Option α} {value : α}

variable (L) in
/-- Reads a token for which a value is chosen. -/
def accept (choose : τ → Option α) : Parser α := fun inp ↦
  match L.next inp with
  | none => .ok []
  | some (token, rest) =>
    match choose token with
    | none => .ok []
    | some value => .ok [(value, rest)]

theorem accept_of_next (h : L.next text = some (token, rest)) (hvalue : choose token = some value) :
    L.accept choose text = .ok [(value, rest)] := by
  simp only [accept, h, hvalue]

theorem accept_eq_nil (h : ∀ token rest, L.next text = some (token, rest) → choose token = none) :
    L.accept choose text = .ok [] := by
  unfold accept
  cases hnext : L.next text with
  | none => rfl
  | some pair => simp only [h _ _ hnext]

/-- A run of `accept` either has no outcome or reads a token it has a value for. -/
theorem accept_cases (L : Lexicon τ) (choose : τ → Option α) (text : Text) :
    L.accept choose text = .ok [] ∨ ∃ token value rest, L.next text = some (token, rest) ∧
      choose token = some value ∧ L.accept choose text = .ok [(value, rest)] := by
  cases hnext : L.next text with
  | none => exact .inl (accept_eq_nil fun _ _ h ↦ absurd (hnext.symm.trans h) (by simp))
  | some pair =>
    obtain ⟨token, rest⟩ := pair
    cases hvalue : choose token with
    | none =>
      refine .inl (accept_eq_nil fun other after h ↦ ?_)
      rw [(next_unique hnext h).1, hvalue]
    | some value => exact .inr ⟨token, value, rest, rfl, hvalue, accept_of_next hnext hvalue⟩

theorem map_accept (choose : τ → Option α) {β : Type} (f : α → β) :
    (L.accept choose).map f = L.accept fun token ↦ (choose token).map f := by
  funext inp
  unfold Parser.map accept
  cases L.next inp with
  | none => rfl
  | some pair => cases hvalue : choose pair.1 <;> simp [hvalue]

theorem anyOf_accept_singleton (choose : τ → Option α) :
    Parser.anyOf [L.accept choose] = L.accept choose := by
  funext inp
  rw [Parser.anyOf_cons, Parser.anyOf_nil]
  cases L.accept choose inp <;> simp

/-- A choice between tokens that do not overlap reads a token of either kind. -/
theorem anyOf_accept_pair {choose other : τ → Option α}
    (h : ∀ token, choose token = none ∨ other token = none) :
    Parser.anyOf [L.accept choose, L.accept other] =
      L.accept fun token ↦ (choose token).or (other token) := by
  funext inp
  rw [Parser.anyOf_cons, anyOf_accept_singleton]
  unfold accept
  cases L.next inp with
  | none => rfl
  | some pair =>
    simp only
    rcases h pair.1 with hnone | hnone
    · rw [hnone]
      cases other pair.1 <;> rfl
    · rw [hnone]
      cases choose pair.1 <;> rfl

variable (L) in
/-- Reads this token and no other. -/
def exactly [DecidableEq τ] (token : τ) (value : α) : Parser α :=
  L.accept fun t ↦ if t = token then some value else none

theorem exactly_of_next [DecidableEq τ] (h : L.next text = some (token, rest)) (value : α) :
    L.exactly token value text = .ok [(value, rest)] := accept_of_next h (if_pos rfl)

theorem exactly_eq_nil [DecidableEq τ] (h : ∀ rest, L.next text ≠ some (token, rest)) (value : α) :
    L.exactly token value text = .ok [] := by
  apply accept_eq_nil
  intro other rest hnext
  refine if_neg fun hsame ↦ h rest ?_
  rw [hnext, hsame]

theorem map_exactly [DecidableEq τ] (token : τ) (value : α) {β : Type} (f : α → β) :
    (L.exactly token value).map f = L.exactly token (f value) := by
  unfold exactly
  rw [map_accept]
  congr 1
  funext other
  by_cases h : other = token
  · rw [if_pos h, if_pos h, Option.map_some]
  · rw [if_neg h, if_neg h, Option.map_none]

/-- A mark that is read as a token wherever it stands is read by the parser of the token. -/
theorem symbol_eq_exactly [DecidableEq τ] {mark : Text}
    (hread : ∀ rest, L.read (mark ++ rest) = some (token, rest))
    (hmark : ∀ text rest, L.read text = some (token, rest) → text = mark ++ rest) :
    Parser.symbol mark = L.exactly token mark := by
  funext inp
  rw [Parser.symbol_apply]
  by_cases h : mark.isPrefixOf inp
  · obtain ⟨rest, rfl⟩ := List.isPrefixOf_iff_prefix.mp h
    rw [if_pos h, List.drop_left, exactly_of_next (next_of_read (hread rest))]
  · rw [if_neg h, exactly_eq_nil]
    intro rest hnext
    obtain ⟨after, hafter, -⟩ := next_eq_some_iff.mp hnext
    exact h (List.isPrefixOf_iff_prefix.mpr ⟨after, (hmark inp after hafter).symm⟩)

end Lexicon

end Backtrack
