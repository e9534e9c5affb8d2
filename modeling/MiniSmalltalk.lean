import MiniSmalltalk.Report.Render
import MiniSmalltalk.Session.Interpret
import MiniSmalltalk.Proofs.Grammar.Reads
import MiniSmalltalk.Proofs.Grammar.Derivation
import MiniSmalltalk.Proofs.Grammar.Soundness.Expressions
import MiniSmalltalk.Proofs.Grammar.Completeness.Programs
import MiniSmalltalk.Proofs.Grammar.Contract
import MiniSmalltalk.Proofs.Grammar.Parsing
import MiniSmalltalk.Proofs.Evaluation.Shape
import MiniSmalltalk.Proofs.Evaluation.Safety
import MiniSmalltalk.Proofs.Session.Safety
import MiniSmalltalk.Proofs.Token.Tiling
import MiniSmalltalk.Proofs.Token.Separation
import MiniSmalltalk.Proofs.Tree.Relocation
import MiniSmalltalk.Proofs.Evaluation.View
import MiniSmalltalk.Proofs.Evaluation.Naturality
import MiniSmalltalk.Proofs.Grammar.Heredity
import MiniSmalltalk.Proofs.Session.Location
import MiniSmalltalk.Proofs.Evaluation.Depth
import MiniSmalltalk.Proofs.Grammar.Layout
import MiniSmalltalk.Proofs.Grammar.Cascade
import MiniSmalltalk.Proofs.Evaluation.Cascade
import MiniSmalltalk.Proofs.Session.Cascade
import MiniSmalltalk.Proofs.Evaluation.Regime
import MiniSmalltalk.Proofs.Evaluation.Stability
import MiniSmalltalk.Proofs.Session.Stability
import MiniSmalltalk.Proofs.Object.Region
import MiniSmalltalk.Proofs.Evaluation.Isolation
import MiniSmalltalk.Proofs.Grammar.Parallel
import MiniSmalltalk.Proofs.Grammar.Uniformity
import MiniSmalltalk.Proofs.Evaluation.Sequence
import MiniSmalltalk.Proofs.Session.Layout
import MiniSmalltalk.Proofs.Grammar.Joining
import MiniSmalltalk.Proofs.Session.Batch
import MiniSmalltalk.Proofs.Token.Onward
import MiniSmalltalk.Proofs.Grammar.Foresight
import MiniSmalltalk.Proofs.Session.Faults
import MiniSmalltalk.Proofs.Token.Truncation
import MiniSmalltalk.Proofs.Session.Remainder
import MiniSmalltalk.Proofs.Evaluation.Irrelevance
import MiniSmalltalk.Proofs.Evaluation.Provenance
import MiniSmalltalk.Proofs.Evaluation.Declaration
import MiniSmalltalk.Proofs.Session.Appending
import MiniSmalltalk.Proofs.Grammar.Separators
import MiniSmalltalk.Proofs.Token.Placement
import MiniSmalltalk.Proofs.Session.Whereabouts
import MiniSmalltalk.Proofs.Grammar.Parentheses
import MiniSmalltalk.Proofs.Evaluation.Parentheses
import MiniSmalltalk.Proofs.Session.Parentheses
import MiniSmalltalk.Proofs.Object.Assignment
import MiniSmalltalk.Proofs.Session.Invocation
import MiniSmalltalk.Proofs.Session.Rendering
import MiniSmalltalk.Proofs.Grammar.Failing
import MiniSmalltalk.Proofs.Grammar.Viability
import MiniSmalltalk.Proofs.Grammar.Nesting
import MiniSmalltalk.Proofs.Evaluation.Dispatch
import MiniSmalltalk.Proofs.Message.Operation
import MiniSmalltalk.Proofs.Evaluation.Termination
import MiniSmalltalk.Proofs.Number.Literal
import MiniSmalltalk.Proofs.Session.Literals
import MiniSmalltalk.Proofs.Tree.Outline
import MiniSmalltalk.Proofs.Token.Pushback
import MiniSmalltalk.Proofs.Token.Scanner
import MiniSmalltalk.Proofs.Token.Counting
import MiniSmalltalk.Proofs.Token.Following
import MiniSmalltalk.Proofs.Token.Bookkeeping
import MiniSmalltalk.Proofs.Token.Resumption
