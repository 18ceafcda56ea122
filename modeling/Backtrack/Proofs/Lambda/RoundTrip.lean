import Backtrack.Proofs.Lambda.Acceptance

/-!
# Writing terms down and reading them back

A term is written down as tokens with parentheses where its place asks for them and anywhere else,
and the tokens as a text with whitespace and complete comments between them.

The main statement is that a term with valid names is read back from every such text, and that every
term that is read has valid names.  Words such as `letter` or `in1` need no care, since the layout
behind a word ends it.
-/

namespace Backtrack.Lambda

open Alphabet Backtrack.Parser

/-- The names in a term are no keywords and have the characters of names. -/
def Term.NamesValid : Term → Prop
  | .var name => isName name
  | .lam param body => isName param ∧ body.NamesValid
  | .letIn name value body => isName name ∧ value.NamesValid ∧ body.NamesValid
  | .app fn arg => fn.NamesValid ∧ arg.NamesValid

/-- Where a term stands: by itself, as a body or as a defined value, or on a side of an application. -/
inductive Place where
  | whole
  | function
  | argument
  deriving DecidableEq, Repr

/-- The ways to write a term down at a place. -/
inductive Renders : Place → Term → List Token → Prop
  | var (place : Place) (name : Text) : Renders place (.var name) [.word name]
  | lam (name : Text) {body : Term} {tokens : List Token} (hbody : Renders .whole body tokens) :
    Renders .whole (.lam name body) (.backslash :: .word name :: .arrow :: tokens)
  | letIn (name : Text) {value body : Term} {ts us : List Token} (hvalue : Renders .whole value ts)
    (hbody : Renders .whole body us) :
    Renders .whole (.letIn name value body)
      (.word "let".toList :: .word name :: .equals :: (ts ++ .word "in".toList :: us))
  | app {place : Place} (hplace : place ≠ .argument) {fn arg : Term} {ts us : List Token}
    (hfn : Renders .function fn ts) (harg : Renders .argument arg us) :
    Renders place (.app fn arg) (ts ++ us)
  | paren (place : Place) {term : Term} {tokens : List Token} (inner : Renders .whole term tokens) :
    Renders place term (.openParen :: (tokens ++ [.closeParen]))

/-- The ways to write tokens down, with layout between each two. -/
inductive Spaced : List Token → Text → Prop
  | last (token : Token) : Spaced [token] token.spelling
  | cons (token : Token) {gap : Text} (hgap : IsLayout gap) (hne : gap ≠ []) {tokens : List Token}
    {text : Text} (hrest : Spaced tokens text) :
    Spaced (token :: tokens) (token.spelling ++ (gap ++ text))

variable {term : Term} {place : Place} {tokens : List Token} {token : Token} {text gap rest : Text}

/-! ## From tokens to the term -/

/-- The shape of what is written down at a place. -/
def Place.shape : Place → Shape
  | .whole => .whole
  | .function => .spine
  | .argument => .closed

theorem Maximal.toPlace (h : Maximal .closed tokens term) (place : Place) :
    Maximal place.shape tokens term := by
  cases place with
  | whole => exact .spine (.head h)
  | function => exact .head h
  | argument => exact h

theorem Renders.maximal (h : Renders place term tokens) (hvalid : term.NamesValid) :
    Maximal place.shape tokens term := by
  induction h with
  | var place name => exact (Maximal.var hvalid).toPlace place
  | lam name hbody ih => exact .reaching (.lam hvalid.1 (ih hvalid.2))
  | letIn name hvalue hbody ihvalue ihbody =>
    exact .reaching (.letIn (.apart hvalid.1) (ihvalue hvalid.2.1) (ihbody hvalid.2.2))
  | @app place hplace fn arg ts us hfn harg ihfn iharg =>
    have hspine := Maximal.app (ihfn hvalid.1) (iharg hvalid.2)
    cases place with
    | whole => exact .spine hspine
    | function => exact hspine
    | argument => contradiction
  | paren place inner ih => exact (Maximal.paren (ih hvalid)).toPlace place

/-! ## From a text to its tokens -/

theorem startsWithLayout_of_isLayout (h : IsLayout gap) (hne : gap ≠ []) (text : Text) :
    startsWithLayout (gap ++ text) := by
  cases h with
  | nil => contradiction
  | space hspace hrest => simp only [List.cons_append, startsWithLayout, hspace, Bool.true_or]
  | comment hbody hrest => simp [startsWithLayout, commentStart]

theorem skipLayout_spelling (h : token.Delimited rest) :
    skipLayout (token.spelling ++ rest) = token.spelling ++ rest := by
  cases token with
  | word name => exact skipLayout_of_not_endsWord (not_endsWord_of_isWord h.1 rest)
  | _ => exact skipLayout_of_not_startsWithLayout Bool.false_ne_true

/-- A token that is well formed by itself is well formed in front of layout. -/
theorem Token.Delimited.of_startsWithLayout (h : token.Delimited []) (hrest : startsWithLayout rest) :
    token.Delimited rest := by
  cases token with
  | word name => exact ⟨h.1, endsWord_of_startsWithLayout hrest⟩
  | _ => trivial

theorem Spaced.reads (h : Spaced tokens text) (hvalid : ∀ token ∈ tokens, token.Delimited []) :
    lexicon.Reads (skipLayout text) tokens [] := by
  induction h with
  | last token =>
    have htoken : token.Delimited [] := hvalid token List.mem_cons_self
    have hskip := skipLayout_spelling htoken
    rw [List.append_nil] at hskip
    rw [hskip, Lexicon.reads_singleton]
    exact next_eq_some_iff.mpr ⟨[], (List.append_nil _).symm, htoken, skipLayout_nil⟩
  | @cons token gap hgap hne tokens text hrest ih =>
    have hlayout := startsWithLayout_of_isLayout hgap hne text
    have htoken := (hvalid token List.mem_cons_self).of_startsWithLayout hlayout
    have hnext : lexicon.next (token.spelling ++ (gap ++ text)) = some (token, skipLayout text) :=
      next_eq_some_iff.mpr ⟨gap ++ text, rfl, htoken, hgap.skipLayout_append text⟩
    rw [skipLayout_spelling htoken]
    exact ⟨_, hnext, ih fun other hother ↦ hvalid other (List.mem_cons_of_mem token hother)⟩

theorem Token.delimited_word {name : Text} (h : isName name) : (Token.word name).Delimited [] :=
  ⟨isWord_of_isName h, rfl⟩

theorem Renders.delimited (h : Renders place term tokens) (hvalid : term.NamesValid) :
    ∀ token ∈ tokens, token.Delimited [] := by
  induction h with
  | var place name =>
    exact List.forall_mem_singleton.mpr (Token.delimited_word hvalid)
  | lam name hbody ih =>
    simp only [List.forall_mem_cons]
    exact ⟨trivial, Token.delimited_word hvalid.1, trivial, ih hvalid.2⟩
  | letIn name hvalue hbody ihvalue ihbody =>
    simp only [List.forall_mem_cons, List.forall_mem_append]
    refine ⟨⟨by decide, rfl⟩, Token.delimited_word hvalid.1, trivial, ihvalue hvalid.2.1, ?_, ?_⟩
    · exact ⟨by decide, rfl⟩
    · exact ihbody hvalid.2.2
  | app hplace hfn harg ihfn iharg =>
    exact List.forall_mem_append.mpr ⟨ihfn hvalid.1, iharg hvalid.2⟩
  | paren place inner ih =>
    simp only [List.forall_mem_cons, List.forall_mem_append]
    exact ⟨trivial, ih hvalid, trivial, fun _ h ↦ absurd h List.not_mem_nil⟩

/-- A term with valid names is read back from every text it is written down as. -/
theorem parseTerm_of_renders (hvalid : term.NamesValid) (hrenders : Renders .whole term tokens)
    (hspaced : Spaced tokens text) : parseTerm text = .ok term := by
  have hreads := hspaced.reads (hrenders.delimited hvalid)
  exact parseTerm_of_maximal (Lexicon.tokens?_eq_some_iff.mpr hreads) (hrenders.maximal hvalid)

/-! ## Names that are read -/

theorem Derives.namesValid {kind : Kind} (h : Derives kind tokens term) : term.NamesValid := by
  induction h with
  | var hname => exact hname
  | paren inner ih => exact ih
  | lam hname hbody ih => exact ⟨hname, ih⟩
  | letIn hhead hvalue hbody ihvalue ihbody =>
    have hname := match hhead with
      | .apart hname => hname
      | .joined hname => hname
    exact ⟨hname, ihvalue, ihbody⟩
  | atom atom ih => exact ih
  | app hfn harg ihfn iharg => exact ⟨ihfn, iharg⟩

theorem namesValid_of_parseTerm (h : parseTerm text = .ok term) : term.NamesValid := by
  obtain ⟨tokens, -, hderives⟩ := exists_derives_of_parseTerm h
  exact hderives.namesValid

/-! ## A way to write a term down -/

/-- Puts parentheses around tokens where they are needed. -/
def enclose (needed : Bool) (tokens : List Token) : List Token :=
  if needed then .openParen :: (tokens ++ [.closeParen]) else tokens

/-- The tokens of a term with only the parentheses that its place asks for. -/
def Term.render : Term → Place → List Token
  | .var name, _ => [.word name]
  | .lam name body, place =>
    enclose (place != .whole) (.backslash :: .word name :: .arrow :: body.render .whole)
  | .letIn name value body, place =>
    enclose (place != .whole) (.word "let".toList :: .word name :: .equals ::
      (value.render .whole ++ .word "in".toList :: body.render .whole))
  | .app fn arg, place =>
    enclose (place == .argument) (fn.render .function ++ arg.render .argument)

/-- The text of tokens with a blank between each two. -/
def spellOut : List Token → Text
  | [] => []
  | [token] => token.spelling
  | token :: tokens => token.spelling ++ ' ' :: spellOut tokens

theorem renders_render (term : Term) (place : Place) : Renders place term (term.render place) := by
  induction term generalizing place with
  | var name => exact .var place name
  | lam name body ih =>
    have hlam := Renders.lam name (ih .whole)
    cases place with
    | whole => exact hlam
    | _ => exact .paren _ hlam
  | letIn name value body ihvalue ihbody =>
    have hletIn := Renders.letIn name (ihvalue .whole) (ihbody .whole)
    cases place with
    | whole => exact hletIn
    | _ => exact .paren _ hletIn
  | app fn arg ihfn iharg =>
    cases place with
    | argument => exact .paren .argument (.app (by decide) (ihfn .function) (iharg .argument))
    | _ => exact .app (by decide) (ihfn .function) (iharg .argument)

theorem Renders.ne_nil (h : Renders place term tokens) : tokens ≠ [] := by
  induction h with
  | app hplace hfn harg ihfn iharg => exact fun hnil ↦ ihfn (List.append_eq_nil_iff.mp hnil).1
  | _ => exact List.cons_ne_nil _ _

theorem spaced_spellOut (h : tokens ≠ []) : Spaced tokens (spellOut tokens) := by
  have hblank : IsLayout [' '] := .space (by decide) .nil
  induction tokens with
  | nil => contradiction
  | cons token tokens ih =>
    cases tokens with
    | nil => exact .last token
    | cons other others => exact .cons token hblank (List.cons_ne_nil _ _) (ih (List.cons_ne_nil _ _))

/-- Terms with valid names are read back, and terms that are read have valid names. -/
theorem parseTerm_roundTrip :
    (∀ term tokens text, term.NamesValid → Renders .whole term tokens → Spaced tokens text →
      parseTerm text = .ok term) ∧
    ∀ text term, parseTerm text = .ok term →
      term.NamesValid ∧ (∃ tokens again, Renders .whole term tokens ∧ Spaced tokens again) ∧
      ∀ tokens again, Renders .whole term tokens → Spaced tokens again →
        parseTerm again = .ok term := by
  constructor
  · intro term tokens text hvalid hrenders hspaced
    exact parseTerm_of_renders hvalid hrenders hspaced
  · intro text term h
    have hvalid := namesValid_of_parseTerm h
    have hrenders := renders_render term .whole
    refine ⟨hvalid, ⟨_, _, hrenders, spaced_spellOut hrenders.ne_nil⟩, ?_⟩
    intro tokens again hrenders hspaced
    exact parseTerm_of_renders hvalid hrenders hspaced

/-- A word that starts with a keyword is read back, and so is what is then written down again. -/
theorem parseTerm_roundTrip_letter :
    parseTerm "( letter ) -- a name\n in1".toList =
      .ok (.app (.var "letter".toList) (.var "in1".toList)) ∧
    parseTerm "letter in1".toList = .ok (.app (.var "letter".toList) (.var "in1".toList)) := by
  have hblank : IsLayout [' '] := .space (by decide) .nil
  have hgap : IsLayout (' ' :: '-' :: '-' :: (" a name".toList ++ newline :: [' '])) :=
    .space (by decide) (.comment (by decide) hblank)
  have hlast := Spaced.cons .closeParen hgap (List.cons_ne_nil _ _) (.last (.word "in1".toList))
  have hspaced := Spaced.cons .openParen hblank (List.cons_ne_nil _ _)
    (.cons (.word "letter".toList) hblank (List.cons_ne_nil _ _) hlast)
  have hletter : isName "letter".toList := by decide
  have hin1 : isName "in1".toList := by decide
  have hrenders : Renders .whole (.app (.var "letter".toList) (.var "in1".toList)) _ :=
    .app (by decide) (.paren .function (.var .whole _)) (.var .argument _)
  have hvalid : Term.NamesValid (.app (.var "letter".toList) (.var "in1".toList)) :=
    ⟨hletter, hin1⟩
  have hread := parseTerm_roundTrip.1 _ _ _ hvalid hrenders hspaced
  have hrendered := renders_render (.app (.var "letter".toList) (.var "in1".toList)) .whole
  have hagain := (parseTerm_roundTrip.2 _ _ hread).2.2 _ _ hrendered (spaced_spellOut hrendered.ne_nil)
  exact ⟨hread, hagain⟩

end Backtrack.Lambda
