import ExprLang.OperatorOrder
import ExprLang.KeywordHint
import ExprLang.Scanner
import ExprLang.Parser
import ExprLang.Host
import ExprLang.Attempt
import ExprLang.Reader.Progress
import ExprLang.SExpression
import ExprLang.TreeEquality
import ExprLang.TreeText
import ExprLang.Proofs.Consumption
import ExprLang.Proofs.Grammar
import ExprLang.Proofs.Recognizer
import ExprLang.Proofs.Completion
import ExprLang.Proofs.Derivation
import ExprLang.Proofs.Climbing
import ExprLang.Proofs.Soundness
import ExprLang.Proofs.Completeness
import ExprLang.Proofs.Failures
import ExprLang.Proofs.Session
import ExprLang.Proofs.SingleStatement
import ExprLang.Proofs.Acceptance
import ExprLang.Proofs.Segments
import ExprLang.Proofs.Coverage
import ExprLang.Proofs.Coupling
import ExprLang.Proofs.Answers
import ExprLang.Proofs.TokenSequence
import ExprLang.Proofs.OnDemand
import ExprLang.Proofs.ConsumedText
import ExprLang.Proofs.Nesting
import ExprLang.Proofs.Overflow
import ExprLang.Proofs.Programs
import ExprLang.Proofs.DepthLimit
import ExprLang.Proofs.Concatenation
import ExprLang.Proofs.Requests
import ExprLang.Proofs.Spans
import ExprLang.Proofs.Layout
import ExprLang.Proofs.Scanning
import ExprLang.Proofs.Spelling
import ExprLang.Proofs.Rendering
import ExprLang.Proofs.RoundTrip
import ExprLang.Proofs.Lookahead
import ExprLang.Proofs.Ending
import ExprLang.Proofs.Spacing
import ExprLang.Proofs.WellFormed
import ExprLang.Proofs.Places
import ExprLang.Proofs.PrintedTrees
import ExprLang.Proofs.ReservedOperators
import ExprLang.Proofs.Reparsing
import ExprLang.Proofs.EditScripts
import ExprLang.Proofs.NearestKeywords
import ExprLang.Proofs.TreeIdentity
import ExprLang.Proofs.NumberWidth
import ExprLang.Proofs.OperationSpans
import ExprLang.Proofs.TokenOrder
import ExprLang.Proofs.NestedTails
import ExprLang.Proofs.Shortages
import ExprLang.Proofs.HostedAnswers
import ExprLang.Proofs.ByteReading
