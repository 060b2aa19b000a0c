import SignalFlow.Binary64
import SignalFlow.Bindings
import SignalFlow.Command.Arguments
import SignalFlow.Command.Assignment
import SignalFlow.Command.Diagnostic
import SignalFlow.Command.Document
import SignalFlow.Command.Outline
import SignalFlow.Command.Request
import SignalFlow.Command.Run
import SignalFlow.Command.Switch
import SignalFlow.Decimal.Layout
import SignalFlow.Decimal.Numeral
import SignalFlow.Decimal.Shortest
import SignalFlow.Decimal.Signed
import SignalFlow.Double
import SignalFlow.Expr.Basic
import SignalFlow.Expr.Dot
import SignalFlow.Expr.Edit
import SignalFlow.Expr.Error
import SignalFlow.Fault
import SignalFlow.Graph.Basic
import SignalFlow.Graph.Builder
import SignalFlow.Graph.Dot
import SignalFlow.Graph.Error
import SignalFlow.Graph.Index
import SignalFlow.Graph.Path
import SignalFlow.Graph.Registry
import SignalFlow.Graph.Search
import SignalFlow.Id
import SignalFlow.Main
import SignalFlow.Mason.Determinant
import SignalFlow.Mason.Error
import SignalFlow.Mason.Solve
import SignalFlow.Operator
import SignalFlow.Postfix
import SignalFlow.Proofs.Expr.Exact
import SignalFlow.Proofs.Expr.Value
import SignalFlow.Proofs.Graph.Change
import SignalFlow.Proofs.Graph.Destroy
import SignalFlow.Proofs.Graph.Enumeration
import SignalFlow.Proofs.Graph.Extend
import SignalFlow.Proofs.Graph.Live
import SignalFlow.Proofs.Graph.Search
import SignalFlow.Proofs.Graph.Walk
import SignalFlow.Proofs.Graph.WellFormed
import SignalFlow.Proofs.Mason.Cut
import SignalFlow.Proofs.Mason.Determinant
import SignalFlow.Proofs.Mason.Expansion
import SignalFlow.Proofs.Mason.Flow
import SignalFlow.Proofs.Mason.LoopSum
import SignalFlow.Proofs.Mason.Sets
import SignalFlow.Proofs.Mason.Transfer
import SignalFlow.Reader.Call
import SignalFlow.Reader.Grammar
import SignalFlow.Reader.OfText
import SignalFlow.Reader.Token
import SignalFlow.Remaining
import SignalFlow.Rewrite.Chain
import SignalFlow.Rewrite.Fold
import SignalFlow.Rewrite.Identity
import SignalFlow.Rewrite.LikeTerms
import SignalFlow.Rewrite.Progress
import SignalFlow.Rewrite.Quotient
import SignalFlow.Rewrite.Simplify
import SignalFlow.Scalar
import SignalFlow.Slots
import SignalFlow.Text.Blank
import SignalFlow.Text.Concealed
import SignalFlow.Text.Cut
import SignalFlow.Text.Quoted
import SignalFlow.Tolerance
import SignalFlow.Tree
import SignalFlow.Tree.Text
import SignalFlow.Proofs.Graph.Consistent
import SignalFlow.Proofs.Graph.InPlace
import SignalFlow.Proofs.Graph.Multigraph
import SignalFlow.Proofs.Expr.Regular
import SignalFlow.Proofs.Rewrite.Rules
import SignalFlow.Proofs.Rewrite.LikeTerms
import SignalFlow.Proofs.Rewrite.Simplify
import SignalFlow.Proofs.Mason.Simplified
import SignalFlow.Proofs.Arena.Basic
import SignalFlow.Proofs.Arena.Edit
import SignalFlow.Proofs.Arena.Pass
import SignalFlow.Proofs.Expr.Hole
import SignalFlow.Proofs.Arena.Cells
import SignalFlow.Proofs.Arena.Copy
import SignalFlow.Proofs.Arena.Surgery
import SignalFlow.Proofs.Arena.Operations
import SignalFlow.Proofs.Arena.BottomUp
import SignalFlow.Proofs.Arena.Passes
import SignalFlow.Proofs.Arena.Chains
import SignalFlow.Proofs.Arena.OfText
import SignalFlow.Proofs.Arena.Consistent
import SignalFlow.Proofs.Arena.Run
import SignalFlow.Proofs.Reader.Image
import SignalFlow.Proofs.Reader.Meaning
import SignalFlow.Proofs.Reader.Exchange
import SignalFlow.Proofs.Reader.Splice
import SignalFlow.Proofs.Expr.Variables
import SignalFlow.Proofs.Expr.Substitution
import SignalFlow.Proofs.Expr.Path
import SignalFlow.Proofs.Arena.Represent
import SignalFlow.Proofs.Arena.Readback
import SignalFlow.Proofs.Rewrite.BareTree
import SignalFlow.Proofs.Arena.Faithful
import SignalFlow.Proofs.Rewrite.Rounds
import SignalFlow.Proofs.Rewrite.Cost
import SignalFlow.Proofs.Rewrite.Skew
import SignalFlow.Proofs.Rewrite.Written
import SignalFlow.Proofs.Rewrite.Weigh
import SignalFlow.Proofs.Rewrite.Collected
import SignalFlow.Proofs.Rewrite.Flat
import SignalFlow.Proofs.Double.Unpacked
import SignalFlow.Proofs.Double.Coefficients
import SignalFlow.Proofs.Rewrite.Settle
import SignalFlow.Proofs.Rewrite.LeftLeaning
import SignalFlow.Proofs.Arena.LeftLeaning
import SignalFlow.Proofs.Graph.Without
import SignalFlow.Proofs.Mason.Cofactor
import SignalFlow.Proofs.Rewrite.Merged
import SignalFlow.Proofs.Rewrite.Undefined
import SignalFlow.Proofs.Double.Absorbing
import SignalFlow.Proofs.Rewrite.Infinity
import SignalFlow.Proofs.Rewrite.NoNumber
import SignalFlow.Proofs.Rewrite.Graded
import SignalFlow.Proofs.Rewrite.Once
import SignalFlow.Proofs.Rewrite.Inverses
import SignalFlow.Proofs.Reader.CallByCall
import SignalFlow.Proofs.Reader.Factors
import SignalFlow.Proofs.Arena.Settle
import SignalFlow.Proofs.Arena.Climb
import SignalFlow.Proofs.Arena.CallByCall
import SignalFlow.Proofs.Arena.Groups
import SignalFlow.Proofs.Arena.Settled
import SignalFlow.Proofs.Reader.Numeral
import SignalFlow.Proofs.Reader.Lexeme
import SignalFlow.Proofs.Reader.Cutting
import SignalFlow.Proofs.Reader.Viable
import SignalFlow.Proofs.Arena.Agree
import SignalFlow.Proofs.Expr.Recursive
import SignalFlow.Proofs.Arena.Evaluate
import SignalFlow.Proofs.Graph.Builder
import SignalFlow.Proofs.Graph.Dot
import SignalFlow.Proofs.Text.Parts
import SignalFlow.Proofs.Text.Framed
import SignalFlow.Proofs.Command.Outline
import SignalFlow.Proofs.Expr.Alike
import SignalFlow.Proofs.Reader.Number
import SignalFlow.Proofs.Command.Assignment
import SignalFlow.Proofs.Text.Label
import SignalFlow.Proofs.Expr.Dot
import SignalFlow.Proofs.Graph.Index
import SignalFlow.Proofs.Mason.Flags
import SignalFlow.Proofs.Mason.Levels
import SignalFlow.Proofs.Double.Near
