import Backtrack.Proofs.Lambda.Language

/-!
# Bodies that reach as far as they can

The grammar of lambda terms is ambiguous.  `Maximal` keeps the derivations in which the body of an
abstraction or a definition reaches as far right as it can, so that nothing is applied to an argument
behind such a body, and these are the derivations that the parser follows.

The main statement is that this loses no list of tokens: what can be derived has a maximal derivation,
possibly of another term.  It rests on pushing an argument into the last body in front of it.
-/

namespace Backtrack.Lambda

/-- What can follow a phrase.  A closed atom ends with its last token, a reaching one with its body.
A spine is closed atoms side by side, and a whole term may end in a reaching atom. -/
inductive Shape where
  | closed
  | reaching
  | spine
  | whole
  deriving DecidableEq, Repr

/-- The phrases of each shape, each with its term. -/
inductive Maximal : Shape → List Token → Term → Prop
  | var {name : Text} (hname : isName name) : Maximal .closed [.word name] (.var name)
  | paren {tokens : List Token} {term : Term} (inner : Maximal .whole tokens term) :
    Maximal .closed (.openParen :: (tokens ++ [.closeParen])) term
  | lam {name : Text} (hname : isName name) {tokens : List Token} {body : Term}
    (hbody : Maximal .whole tokens body) :
    Maximal .reaching (.backslash :: .word name :: .arrow :: tokens) (.lam name body)
  | letIn {name : Text} {head ts us : List Token} (hhead : LetHead head name) {value body : Term}
    (hvalue : Maximal .whole ts value) (hbody : Maximal .whole us body) :
    Maximal .reaching (head ++ .equals :: (ts ++ .word "in".toList :: us)) (.letIn name value body)
  | head {tokens : List Token} {term : Term} (atom : Maximal .closed tokens term) :
    Maximal .spine tokens term
  | app {ts us : List Token} {fn arg : Term} (hfn : Maximal .spine ts fn)
    (harg : Maximal .closed us arg) : Maximal .spine (ts ++ us) (.app fn arg)
  | spine {tokens : List Token} {term : Term} (spine : Maximal .spine tokens term) :
    Maximal .whole tokens term
  | reaching {tokens : List Token} {term : Term} (atom : Maximal .reaching tokens term) :
    Maximal .whole tokens term
  | appReaching {ts us : List Token} {fn arg : Term} (hfn : Maximal .spine ts fn)
    (harg : Maximal .reaching us arg) : Maximal .whole (ts ++ us) (.app fn arg)

variable {shape : Shape} {ts us : List Token} {term arg : Term}

/-- An atom behind a phrase that ends with a body becomes part of the body. -/
theorem Maximal.append (h : Maximal shape ts term) (hshape : shape = .reaching ∨ shape = .whole)
    (harg : Maximal .closed us arg ∨ Maximal .reaching us arg) :
    ∃ t, Maximal shape (ts ++ us) t := by
  induction h with
  | var => exact absurd hshape (by decide)
  | paren => exact absurd hshape (by decide)
  | head => exact absurd hshape (by decide)
  | app => exact absurd hshape (by decide)
  | @lam name hname tokens body hbody ih =>
    obtain ⟨longer, hlonger⟩ := ih (.inr rfl)
    exact ⟨.lam name longer, .lam hname hlonger⟩
  | @letIn name head ts vs hhead value body hvalue hbody _ ih =>
    obtain ⟨longer, hlonger⟩ := ih (.inr rfl)
    have hletIn := Maximal.letIn hhead hvalue hlonger
    refine ⟨.letIn name value longer, ?_⟩
    simpa only [List.append_assoc, List.cons_append] using hletIn
  | spine hspine =>
    rcases harg with hclosed | hreaching
    · exact ⟨_, .spine (.app hspine hclosed)⟩
    · exact ⟨_, .appReaching hspine hreaching⟩
  | reaching atom ih =>
    obtain ⟨longer, hlonger⟩ := ih (.inl rfl)
    exact ⟨longer, .reaching hlonger⟩
  | @appReaching ts vs fn last hfn hlast _ ih =>
    obtain ⟨longer, hlonger⟩ := ih (.inl rfl)
    refine ⟨.app fn longer, ?_⟩
    rw [List.append_assoc]
    exact .appReaching hfn hlonger

/-- The tokens have a maximal derivation as a phrase of this kind. -/
def Kind.HasMaximal : Kind → List Token → Prop
  | .atom, tokens => ∃ term, Maximal .closed tokens term ∨ Maximal .reaching tokens term
  | .application, tokens => ∃ term, Maximal .whole tokens term

/-- What can be derived has a maximal derivation. -/
theorem Derives.hasMaximal {kind : Kind} {tokens : List Token} (h : Derives kind tokens term) :
    kind.HasMaximal tokens := by
  induction h with
  | @var name hname => exact ⟨.var name, .inl (.var hname)⟩
  | paren inner ih =>
    obtain ⟨term, hterm⟩ := ih
    exact ⟨term, .inl (.paren hterm)⟩
  | @lam name hname tokens body hbody ih =>
    obtain ⟨body, hbody⟩ := ih
    exact ⟨.lam name body, .inr (.lam hname hbody)⟩
  | @letIn name head ts us hhead value body hvalue hbody ihvalue ihbody =>
    obtain ⟨value, hvalue⟩ := ihvalue
    obtain ⟨body, hbody⟩ := ihbody
    exact ⟨.letIn name value body, .inr (.letIn hhead hvalue hbody)⟩
  | atom atom ih =>
    obtain ⟨term, hclosed | hreaching⟩ := ih
    · exact ⟨term, .spine (.head hclosed)⟩
    · exact ⟨term, .reaching hreaching⟩
  | app hfn harg ihfn iharg =>
    obtain ⟨fn, hfn⟩ := ihfn
    obtain ⟨arg, harg⟩ := iharg
    exact hfn.append (.inr rfl) harg

end Backtrack.Lambda
