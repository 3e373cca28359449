import ChartGrammar.Grammar.Printer
import ChartGrammar.Notice
import ChartGrammar.Proofs.AlikeCharts
import ChartGrammar.Proofs.BindingGroups
import ChartGrammar.Proofs.BuilderHistory
import ChartGrammar.Proofs.Building
import ChartGrammar.Proofs.ChartCompleteness
import ChartGrammar.Proofs.ChartSoundness
import ChartGrammar.Proofs.CompiledGroups
import ChartGrammar.Proofs.CompiledMeaning
import ChartGrammar.Proofs.CompiledParser
import ChartGrammar.Proofs.CompiledProduct
import ChartGrammar.Proofs.CompiledRules
import ChartGrammar.Proofs.Conformance
import ChartGrammar.Proofs.DirectBuilding
import ChartGrammar.Proofs.DistinctEnds
import ChartGrammar.Proofs.EmptyValues
import ChartGrammar.Proofs.EnoughFuel
import ChartGrammar.Proofs.Ensures
import ChartGrammar.Proofs.ExactTerminalizing
import ChartGrammar.Proofs.FirstFault
import ChartGrammar.Proofs.Identifiers
import ChartGrammar.Proofs.JoinPlans
import ChartGrammar.Proofs.Kinds
import ChartGrammar.Proofs.Layout
import ChartGrammar.Proofs.Lookahead
import ChartGrammar.Proofs.Lowering
import ChartGrammar.Proofs.Meaning
import ChartGrammar.Proofs.NonEmptiness
import ChartGrammar.Proofs.Outcome
import ChartGrammar.Proofs.ParserCompleteness
import ChartGrammar.Proofs.ParserVerdicts
import ChartGrammar.Proofs.PlainEvaluation
import ChartGrammar.Proofs.Preference
import ChartGrammar.Proofs.Printing
import ChartGrammar.Proofs.Productions
import ChartGrammar.Proofs.QuietRuns
import ChartGrammar.Proofs.Reachable
import ChartGrammar.Proofs.ReaderCompleteness
import ChartGrammar.Proofs.ReaderSoundness
import ChartGrammar.Proofs.Readings
import ChartGrammar.Proofs.References
import ChartGrammar.Proofs.Refusals
import ChartGrammar.Proofs.Remembered
import ChartGrammar.Proofs.RenamedRules
import ChartGrammar.Proofs.Repetition
import ChartGrammar.Proofs.Retracing
import ChartGrammar.Proofs.RoundTrip
import ChartGrammar.Proofs.Scanning
import ChartGrammar.Proofs.Seats
import ChartGrammar.Proofs.Settling
import ChartGrammar.Proofs.SharedTerminalizers
import ChartGrammar.Proofs.Signature
import ChartGrammar.Proofs.Simulation
import ChartGrammar.Proofs.StraightRuns
import ChartGrammar.Proofs.TerminalizerExists
import ChartGrammar.Proofs.Terminalizing
import ChartGrammar.Proofs.Tracing
import ChartGrammar.Proofs.WalkOrder
import ChartGrammar.Proofs.WellFormed
import ChartGrammar.Proofs.YieldTable
