import Backtrack.Alphabet
import Backtrack.Parser.Basic
import Backtrack.Parser.Character
import Backtrack.Parser.Choice
import Backtrack.Parser.Repetition
import Backtrack.Parser.Chain
import Backtrack.Lexical
import Backtrack.Quoted
import Backtrack.Diagnostic
import Backtrack.Verdict
import Backtrack.Arith.Power
import Backtrack.Arith.Expression
import Backtrack.Lambda.Grammar
import Backtrack.Dynamic.Value
import Backtrack.Dynamic.Grammar
import Backtrack.Dynamic.RuleTable
import Backtrack.Proofs.Repetition
import Backtrack.Proofs.Outcome
import Backtrack.Proofs.Choice
import Backtrack.Proofs.Layout
import Backtrack.Proofs.Lexicon
import Backtrack.Proofs.Chain
import Backtrack.Proofs.Yields
import Backtrack.Proofs.Recognition
import Backtrack.Proofs.Definite
import Backtrack.Proofs.Decimal
import Backtrack.Proofs.Arith.Language
import Backtrack.Proofs.Arith.Evaluation
import Backtrack.Proofs.Lambda.Language
import Backtrack.Proofs.CharacterRun
import Backtrack.Proofs.Identifier
import Backtrack.Proofs.Lambda.Words
import Backtrack.Proofs.Lambda.Maximal
import Backtrack.Proofs.Lambda.Acceptance
import Backtrack.Proofs.Lambda.RoundTrip
import Backtrack.Proofs.Suffix
import Backtrack.Proofs.Dynamic.Built
import Backtrack.Proofs.Quoted
import Backtrack.Proofs.Attempt
import Backtrack.Proofs.Locality
import Backtrack.Proofs.Nesting
import Backtrack.Proofs.Arith.Malformed
import Backtrack.Proofs.Greedy
import Backtrack.Proofs.ChainFold
import Backtrack.Proofs.Returns
import Backtrack.Proofs.Alternatives
import Backtrack.Proofs.MaximalRun
import Backtrack.Proofs.Scan
import Backtrack.Proofs.Segmentation
import Backtrack.Proofs.WordList
import Backtrack.Proofs.Revision
import Backtrack.Proofs.Commitment
import Backtrack.Proofs.Reordering
import Backtrack.Proofs.MaximalLayout
import Backtrack.Proofs.OpenLayout
import Backtrack.Proofs.MonadLaws
import Backtrack.Proofs.Seam
import Backtrack.Proofs.Composition
import Backtrack.Proofs.Blind
import Backtrack.Proofs.Trailing
import Backtrack.Proofs.Leading
import Backtrack.Proofs.RightChain
import Backtrack.Proofs.Determinism
import Backtrack.Proofs.Rounding
import Backtrack.Proofs.Arith.Exponent
import Backtrack.Proofs.Diagnostic.Rendering
import Backtrack.Proofs.Diagnostic.Caret
import Backtrack.Proofs.Diagnostic.Placement
