import Backtrack.Proofs.Chain
import Backtrack.Proofs.Choice
import Backtrack.Proofs.Repetition

/-!
# Where an outcome comes from

`Yields p inp outcome` says that the run of `p` on `inp` ends and that this is one of its outcomes.
An outcome of a combined parser is traced back to outcomes of the parsers it is combined from.
-/

namespace Backtrack

theorem eq_ok_of_toOption {ε α : Type} {result : Except ε α} {a : α}
    (h : result.toOption = some a) : result = .ok a := by
  cases result with
  | error e => contradiction
  | ok b =>
    cases h
    rfl

theorem mem_mapM {α β : Type} {f : α → Except Fault β} {as : List α} {bs : List β} {b : β}
    (h : as.mapM f = .ok bs) (hb : b ∈ bs) : ∃ a ∈ as, f a = .ok b := by
  induction as generalizing bs with
  | nil =>
    rw [List.mapM_nil, pure_eq_ok, Except.ok.injEq] at h
    rw [← h] at hb
    contradiction
  | cons a as ih =>
    rw [List.mapM_cons] at h
    obtain ⟨c, hhead, hrest⟩ := exists_of_bind_eq_ok h
    obtain ⟨cs, htail, hsame⟩ := exists_of_bind_eq_ok hrest
    cases hsame
    rcases List.mem_cons.mp hb with rfl | hb
    · exact ⟨a, List.mem_cons_self, hhead⟩
    · obtain ⟨d, hd, hfound⟩ := ih htail hb
      exact ⟨d, List.mem_cons_of_mem a hd, hfound⟩

theorem mem_gather {α β : Type} {f : α → Except Fault (List β)} {as : List α} {bs : List β} {b : β}
    (h : gather f as = .ok bs) (hb : b ∈ bs) : ∃ a ∈ as, ∃ found, f a = .ok found ∧ b ∈ found := by
  unfold gather at h
  cases hrun : as.mapM f with
  | error fault => rw [hrun] at h; contradiction
  | ok lists =>
    rw [hrun, ok_map, Except.ok.injEq] at h
    rw [← h] at hb
    obtain ⟨found, hfound, hmem⟩ := List.mem_flatten.mp hb
    obtain ⟨a, ha, hfa⟩ := mem_mapM hrun hfound
    exact ⟨a, ha, found, hfa, hmem⟩

namespace Parser

variable {α β : Type} {p : Parser α} {inp : Text}

/-- The run of `p` on `inp` ends with this outcome among others. -/
def Yields (p : Parser α) (inp : Text) (outcome : α × Text) : Prop :=
  ∃ outcomes, p inp = .ok outcomes ∧ outcome ∈ outcomes

theorem yields_of_single {outcome : α × Text} (h : p inp = .ok [outcome]) :
    Yields p inp outcome := ⟨[outcome], h, List.mem_singleton_self outcome⟩

theorem eq_of_yields_single {outcome other : α × Text} (h : p inp = .ok [outcome])
    (hother : Yields p inp other) : other = outcome := by
  obtain ⟨outcomes, houtcomes, hmem⟩ := hother
  rw [h, Except.ok.injEq] at houtcomes
  rw [← houtcomes] at hmem
  exact List.mem_singleton.mp hmem

theorem not_yields_of_nil (h : p inp = .ok []) (outcome : α × Text) : ¬ Yields p inp outcome := by
  rintro ⟨outcomes, hrun, hmem⟩
  rw [h, Except.ok.injEq] at hrun
  rw [← hrun] at hmem
  contradiction

theorem not_yields_of_error {fault : Fault} (h : p inp = .error fault) (outcome : α × Text) :
    ¬ Yields p inp outcome := by
  rintro ⟨outcomes, hrun, -⟩
  cases h.symm.trans hrun

theorem yields_bind {f : α → Parser β} {outcome : β × Text} (h : Yields (p.bind f) inp outcome) :
    ∃ value mid, Yields p inp (value, mid) ∧ Yields (f value) mid outcome := by
  obtain ⟨outcomes, hrun, hmem⟩ := h
  obtain ⟨mids, hp, hgather⟩ := exists_of_bind_eq_ok hrun
  obtain ⟨⟨value, mid⟩, hmid, found, hfound, hin⟩ := mem_gather hgather hmem
  exact ⟨value, mid, ⟨mids, hp, hmid⟩, found, hfound, hin⟩

theorem yields_map {f : α → β} {outcome : β × Text} (h : Yields (p.map f) inp outcome) :
    ∃ value, Yields p inp (value, outcome.2) ∧ outcome.1 = f value := by
  obtain ⟨outcomes, hrun, hmem⟩ := h
  obtain ⟨mids, hp, hmap⟩ := exists_of_bind_eq_ok hrun
  cases hmap
  obtain ⟨⟨value, rest⟩, hmid, rfl⟩ := List.mem_map.mp hmem
  exact ⟨value, ⟨mids, hp, hmid⟩, rfl⟩

theorem yields_first {outcome : α × Text} (h : Yields (first p) inp outcome) :
    Yields p inp outcome := by
  obtain ⟨outcomes, hrun, hmem⟩ := h
  obtain ⟨all, hp, htake⟩ := exists_of_bind_eq_ok hrun
  cases htake
  exact ⟨all, hp, List.mem_of_mem_take hmem⟩

theorem yields_firstOf {ps : List (Parser α)} {outcome : α × Text}
    (h : Yields (firstOf ps) inp outcome) : ∃ p ∈ ps, Yields p inp outcome := by
  obtain ⟨outcomes, hrun, hmem⟩ := h
  have hdecision := decision_firstOf ps inp
  rw [hrun] at hdecision
  cases hdecision with
  | none => contradiction
  | outcome before p after hps _ hp =>
    rw [List.mem_singleton.mp hmem, hps]
    exact ⟨p, List.mem_append_cons_self, _, hp, List.mem_cons_self⟩

theorem yields_anyOf {ps : List (Parser α)} {outcome : α × Text}
    (h : Yields (anyOf ps) inp outcome) : ∃ p ∈ ps, Yields p inp outcome := by
  obtain ⟨outcomes, hrun, hmem⟩ := h
  obtain ⟨p, hp, found, hfound, hin⟩ := mem_gather hrun hmem
  exact ⟨p, hp, found, hfound, hin⟩

theorem yields_greedy {outcome : List α × Text} (h : Yields (greedy p) inp outcome) :
    repeatFirst p inp = .ok outcome := by
  obtain ⟨outcomes, hrun, hmem⟩ := h
  obtain ⟨repeated, hp, hsame⟩ := exists_of_bind_eq_ok hrun
  cases hsame
  rw [List.mem_singleton.mp hmem, hp]

/-- A repetition stops at once, or goes on from an outcome that reads something. -/
theorem mem_repetitions {found : Outcomes (List α)} (h : repetitions p inp = .ok found)
    {outcome : List α × Text} (hmem : outcome ∈ found) :
    outcome = ([], inp) ∨
    ∃ value rest more, Yields p inp (value, rest) ∧ rest.length < inp.length ∧
      repetitions p rest = .ok more ∧ ∃ last ∈ more, outcome = readAfter [value] last := by
  cases hp : p inp with
  | error fault => rw [repetitions_of_error hp] at h; contradiction
  | ok outcomes =>
    rw [repetitions_of_ok hp, repetitionsFrom] at h
    obtain ⟨longer, hlonger, hfound⟩ := exists_of_bind_eq_ok h
    cases hfound
    rcases List.mem_append.mp hmem with hlong | hstop
    · obtain ⟨⟨value, rest⟩, hmid, ways, hways, hin⟩ := mem_gather hlonger hlong
      by_cases shorter : rest.length < inp.length
      · simp only [if_pos shorter] at hways
        cases hmore : repetitions p rest with
        | error fault => rw [hmore] at hways; contradiction
        | ok more =>
          rw [hmore] at hways
          cases hways
          obtain ⟨last, hlast, rfl⟩ := List.mem_map.mp hin
          exact .inr ⟨value, rest, more, ⟨outcomes, hp, hmid⟩, shorter, hmore, last, hlast, rfl⟩
      · simp only [if_neg shorter] at hways
        cases hways
        contradiction
    · exact .inl (List.mem_singleton.mp hstop)

theorem yields_many {outcome : List α × Text} (h : Yields (many p) inp outcome) :
    ∃ found, repetitions p inp = .ok found ∧ outcome ∈ found := by
  obtain ⟨found, hrun, hmem⟩ := h
  exact ⟨found, many_eq_iff.mp hrun, hmem⟩

section Chains

variable {op : Parser (Operation α)} {outcome : α × Text}

theorem yields_chainStep {f : Operation α} {y : α} {rest : Text}
    (h : Yields (chainStep p op) inp ((f, y), rest)) :
    ∃ mid, Yields op inp (f, mid) ∧ Yields p mid (y, rest) := by
  obtain ⟨g, mid, hop, hmap⟩ := yields_bind (yields_first h)
  obtain ⟨z, hp, hsame⟩ := yields_map hmap
  cases hsame
  exact ⟨mid, hop, hp⟩

theorem yields_chainl1 (h : Yields (chainl1 p op) inp outcome) :
    ∃ x mid, Yields p inp (x, mid) ∧ foldSteps (chainStep p op) x mid = .ok outcome := by
  obtain ⟨outcomes, hrun, hmem⟩ := h
  obtain ⟨mids, hp, hfolds⟩ := exists_of_bind_eq_ok hrun
  obtain ⟨⟨x, mid⟩, hmid, hfold⟩ := mem_mapM hfolds hmem
  exact ⟨x, mid, ⟨mids, hp, hmid⟩, hfold⟩

theorem yields_chainr1 (h : Yields (chainr1 p op) inp outcome) :
    ∃ x mid, Yields p inp (x, mid) ∧ groupRight (chainStep p op) x mid = .ok outcome := by
  obtain ⟨outcomes, hrun, hmem⟩ := h
  rw [chainr1_eq_groupRight] at hrun
  obtain ⟨mids, hp, hgroups⟩ := exists_of_bind_eq_ok hrun
  obtain ⟨⟨x, mid⟩, hmid, hgroup⟩ := mem_mapM hgroups hmem
  exact ⟨x, mid, ⟨mids, hp, hmid⟩, hgroup⟩

/-- The steps of a right chain are read before any of them is folded. -/
theorem yields_chainr1_steps (h : Yields (chainr1 p op) inp outcome) :
    ∃ x mid steps, Yields p inp (x, mid) ∧
      repeatFirst (chainStep p op) mid = .ok (steps, outcome.2) ∧
      foldRight x steps = .ok outcome.1 := by
  obtain ⟨outcomes, hrun, hmem⟩ := h
  rw [chainr1_apply] at hrun
  obtain ⟨mids, hp, hfolds⟩ := exists_of_bind_eq_ok hrun
  obtain ⟨⟨x, mid⟩, hmid, hfold⟩ := mem_mapM hfolds hmem
  obtain ⟨⟨steps, last⟩, hsteps, hfoldRight⟩ := exists_of_bind_eq_ok hfold
  obtain ⟨value, hvalue, hsame⟩ := exists_of_bind_eq_ok hfoldRight
  cases hsame
  exact ⟨x, mid, steps, ⟨mids, hp, hmid⟩, hsteps, hvalue⟩

end Chains

end Parser

end Backtrack
