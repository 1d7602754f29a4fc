import Combinatory.Text.Position
import Combinatory.Text.Blank
import Combinatory.Text.Numeral
import Combinatory.Text.Newline
import Combinatory.Text.Quoted
import Combinatory.Text.Utf8
import Combinatory.Complexity
import Combinatory.Term.Basic
import Combinatory.Term.Render
import Combinatory.Report.Defect
import Combinatory.Reduction.Contraction
import Combinatory.Reduction.Machine
import Combinatory.Reduction.Reducer
import Combinatory.Reduction.Origin
import Combinatory.Report.Message
import Combinatory.Token.Basic
import Combinatory.Token.Scanner
import Combinatory.Token.Echo
import Combinatory.Program.Basic
import Combinatory.Program.Fault
import Combinatory.Program.Expression
import Combinatory.Program.Parser
import Combinatory.Report.Signal
import Combinatory.Report.Console
import Combinatory.Session
import Combinatory.CommandLine.Request
import Combinatory.CommandLine.Answer
import Combinatory.Main
import Combinatory.Proofs.Calculus.Standard
import Combinatory.Proofs.Reduction.Termination
import Combinatory.Proofs.Calculus.Meaning
import Combinatory.Proofs.Reduction.Shape
import Combinatory.Proofs.Reduction.Leftmost
import Combinatory.Proofs.Reduction.NormalForm
import Combinatory.Proofs.Program.Grammar
import Combinatory.Proofs.Program.Parsing
import Combinatory.Proofs.Program.Acceptance
import Combinatory.Proofs.Program.Source
import Combinatory.Proofs.Program.RoundTrip
import Combinatory.Proofs.Reduction.Budget
import Combinatory.Proofs.Reduction.Evaluation
import Combinatory.Proofs.Reduction.Resumption
import Combinatory.Proofs.Program.Lookahead
import Combinatory.Proofs.Program.Viability
import Combinatory.Proofs.Program.Substitution
import Combinatory.Proofs.Reduction.Outcome
import Combinatory.Proofs.Token.Stream
import Combinatory.Proofs.Session.Ending
import Combinatory.Proofs.Session.History
import Combinatory.Proofs.Token.Pieces
import Combinatory.Proofs.Token.Findings
import Combinatory.Proofs.Token.Recovery
import Combinatory.Proofs.Session.Report
import Combinatory.Proofs.Session.Recovery
import Combinatory.Proofs.Program.Warnings
import Combinatory.Proofs.Session.Messages
import Combinatory.Proofs.CommandLine.Status
import Combinatory.Proofs.Term.Spans
import Combinatory.Proofs.Term.Balance
import Combinatory.Proofs.Reduction.Notes
import Combinatory.Proofs.Reduction.Spans
import Combinatory.Proofs.Reduction.Origin
import Combinatory.Proofs.Reduction.Rewriting
import Combinatory.Proofs.Token.Relocation
import Combinatory.Proofs.Program.Relocation
import Combinatory.Proofs.Token.LineEnds
import Combinatory.Proofs.Session.Relocation
import Combinatory.Proofs.Session.LineEnds
import Combinatory.Proofs.Program.Calls
import Combinatory.Proofs.Program.Spans
import Combinatory.Proofs.Reduction.Replay
import Combinatory.Proofs.Token.Accounting
import Combinatory.Proofs.Token.Separation
import Combinatory.Proofs.Token.Places
import Combinatory.Proofs.Token.Pulls
import Combinatory.Proofs.Program.Clauses
import Combinatory.Proofs.Program.Unwarned
import Combinatory.Proofs.Program.Leaves
import Combinatory.Proofs.Program.Extents
import Combinatory.Proofs.Program.Echo
import Combinatory.Proofs.Session.Bound
import Combinatory.Proofs.Session.Quiet
