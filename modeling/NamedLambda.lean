import NamedLambda.Blank
import NamedLambda.Error
import NamedLambda.Inspection
import NamedLambda.NameSet
import NamedLambda.Proofs.AlphaEquivalence
import NamedLambda.Proofs.CaptureAvoidance
import NamedLambda.Proofs.Confluence
import NamedLambda.Proofs.Environment
import NamedLambda.Proofs.ErrorPrefix
import NamedLambda.Proofs.FreeOccurrences
import NamedLambda.Proofs.FreeVariables
import NamedLambda.Proofs.FreshNames
import NamedLambda.Proofs.Grafting
import NamedLambda.Proofs.Grammar
import NamedLambda.Proofs.Layout
import NamedLambda.Proofs.LeftmostOutermost
import NamedLambda.Proofs.NameIndependence
import NamedLambda.Proofs.Nameless.Confluence
import NamedLambda.Proofs.Nameless.Reduction
import NamedLambda.Proofs.Nameless.Standardization
import NamedLambda.Proofs.Nameless.Substitution
import NamedLambda.Proofs.Names
import NamedLambda.Proofs.NormalOrder
import NamedLambda.Proofs.PaintedText
import NamedLambda.Proofs.PlainSubstitution
import NamedLambda.Proofs.Positions
import NamedLambda.Proofs.Reading
import NamedLambda.Proofs.ReportAlignment
import NamedLambda.Proofs.ReportCells
import NamedLambda.Proofs.ReportLabel
import NamedLambda.Proofs.ReportText
import NamedLambda.Proofs.ResumedLog
import NamedLambda.Proofs.Resumption
import NamedLambda.Proofs.RoundTrip
import NamedLambda.Proofs.Runs
import NamedLambda.Proofs.SessionNames
import NamedLambda.Proofs.SessionOutcome
import NamedLambda.Proofs.SessionSequences
import NamedLambda.Proofs.SourceLines
import NamedLambda.Proofs.SubstitutionLaws
import NamedLambda.Proofs.SubstitutionSize
import NamedLambda.Proofs.SyntaxErrors
import NamedLambda.Proofs.TokenPartition
import NamedLambda.Proofs.TokenPlaces
import NamedLambda.Proofs.Tokens
import NamedLambda.Proofs.Viability
import NamedLambda.Proofs.YieldedTerms
import NamedLambda.Reader
import NamedLambda.Reduction.Bounded
import NamedLambda.Reduction.Contraction
import NamedLambda.Reduction.Event
import NamedLambda.Reduction.Step
import NamedLambda.Reduction.Steps
import NamedLambda.Report
import NamedLambda.Report.Line
import NamedLambda.Report.Row
import NamedLambda.Session
import NamedLambda.Substitution
import NamedLambda.Symbol
import NamedLambda.Symbol.Fresh
import NamedLambda.SyntaxError
import NamedLambda.Term
import NamedLambda.Term.Alpha
import NamedLambda.Term.Nameless
import NamedLambda.Term.Printer
import NamedLambda.Token
