import CommittedParsing.Application
import CommittedParsing.Cursor
import CommittedParsing.Description
import CommittedParsing.Failure
import CommittedParsing.Grammar.Forms
import CommittedParsing.Grammar.Meaning
import CommittedParsing.Program
import CommittedParsing.Report
import CommittedParsing.Session
import CommittedParsing.Span
import CommittedParsing.Value.Functions
import CommittedParsing.Proofs.AddedAttempts
import CommittedParsing.Proofs.Termination.WellFormed
import CommittedParsing.Proofs.Arithmetic.Program
import CommittedParsing.Proofs.KeptText
import CommittedParsing.Proofs.UncommittedFailure
import CommittedParsing.Proofs.FinalCommits
import CommittedParsing.Proofs.ParsingExpressions.Equivalence
import CommittedParsing.Proofs.Rules.SingleDefinition
import CommittedParsing.Proofs.Rules.Tying
import CommittedParsing.Proofs.LookBehind
import CommittedParsing.Proofs.ChainsByRepetition
import CommittedParsing.Proofs.FailurePositions
import CommittedParsing.Proofs.OrderedChoice
import CommittedParsing.Proofs.Subtractions
import CommittedParsing.Proofs.Rules.Forwarders
import CommittedParsing.Proofs.Spans
import CommittedParsing.Proofs.Proceeding
import CommittedParsing.Proofs.Rules.UndefinedRules
import CommittedParsing.Proofs.Repetition.Recursion
import CommittedParsing.Proofs.SequencesByBinding
import CommittedParsing.Proofs.Reports.Window
import CommittedParsing.Proofs.DelimitingSpans
import CommittedParsing.Proofs.Repetition.SeparatedWords
import CommittedParsing.Proofs.CursorWalks
import CommittedParsing.Proofs.ExactTexts
import CommittedParsing.Proofs.Reports.Alternatives
import CommittedParsing.Proofs.Nesting
