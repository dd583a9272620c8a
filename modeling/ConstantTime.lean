import ConstantTime.Abort
import ConstantTime.Analysis.Phase
import ConstantTime.Analysis.Result
import ConstantTime.Analysis.Run
import ConstantTime.Analysis.State
import ConstantTime.Analysis.Timed
import ConstantTime.Analyzer
import ConstantTime.Anomaly
import ConstantTime.CallGraph
import ConstantTime.Check.ConditionalScrub
import ConstantTime.Check.Context
import ConstantTime.Check.GlobalStorage
import ConstantTime.Check.IndirectBranch
import ConstantTime.Check.Rules
import ConstantTime.Check.SecretPath
import ConstantTime.CommandLine.Options
import ConstantTime.CommandLine.Session
import ConstantTime.Config
import ConstantTime.Decimal.Binary64
import ConstantTime.Decimal.Layout
import ConstantTime.Decimal.Shortest
import ConstantTime.Document
import ConstantTime.Document.Json
import ConstantTime.Files
import ConstantTime.Finding
import ConstantTime.Flow.Graph
import ConstantTime.Flow.Loops
import ConstantTime.Graph.Components
import ConstantTime.Graph.Digraph
import ConstantTime.Graph.Dominance
import ConstantTime.Graph.PostOrder
import ConstantTime.Json
import ConstantTime.Json.Display
import ConstantTime.Json.Reader
import ConstantTime.Json.Source
import ConstantTime.Json.Writer
import ConstantTime.Listing
import ConstantTime.Main
import ConstantTime.Path
import ConstantTime.Program.Basic
import ConstantTime.Program.Decode
import ConstantTime.Program.Load
import ConstantTime.Program.Malformed
import ConstantTime.Program.Validity
import ConstantTime.Proofs.AcceptedRegions
import ConstantTime.Proofs.AliasedLoads
import ConstantTime.Proofs.Annotations
import ConstantTime.Proofs.AvoidingSearch
import ConstantTime.Proofs.BlockNames
import ConstantTime.Proofs.BranchArms
import ConstantTime.Proofs.CallComponents
import ConstantTime.Proofs.CallDepth
import ConstantTime.Proofs.Comparison
import ConstantTime.Proofs.Completion
import ConstantTime.Proofs.Components
import ConstantTime.Proofs.Convergence
import ConstantTime.Proofs.Decoding
import ConstantTime.Proofs.DefinitionOrder
import ConstantTime.Proofs.DominanceTree
import ConstantTime.Proofs.Dominators
import ConstantTime.Proofs.Equations
import ConstantTime.Proofs.Faultless
import ConstantTime.Proofs.Filters
import ConstantTime.Proofs.FindingOrder
import ConstantTime.Proofs.FindingPlaces
import ConstantTime.Proofs.Flow
import ConstantTime.Proofs.GlobalStores
import ConstantTime.Proofs.IntegerRange
import ConstantTime.Proofs.Joins
import ConstantTime.Proofs.Judging
import ConstantTime.Proofs.ListingOrder
import ConstantTime.Proofs.LiveCalls
import ConstantTime.Proofs.MemoryRanks
import ConstantTime.Proofs.NaturalLoops
import ConstantTime.Proofs.OpenRegions
import ConstantTime.Proofs.PathCoverage
import ConstantTime.Proofs.PathRuns
import ConstantTime.Proofs.Phases
import ConstantTime.Proofs.PostDominators
import ConstantTime.Proofs.PostOrder
import ConstantTime.Proofs.Provenance
import ConstantTime.Proofs.Rank
import ConstantTime.Proofs.RankTransfer
import ConstantTime.Proofs.Readings
import ConstantTime.Proofs.Regions
import ConstantTime.Proofs.Relisting
import ConstantTime.Proofs.RenamedBlocks
import ConstantTime.Proofs.RenamedChecks
import ConstantTime.Proofs.RenamedFacts
import ConstantTime.Proofs.RenamedGraphs
import ConstantTime.Proofs.ReorderedChecks
import ConstantTime.Proofs.ReorderedFacts
import ConstantTime.Proofs.Reordering
import ConstantTime.Proofs.Reports
import ConstantTime.Proofs.Rounds
import ConstantTime.Proofs.RunHistories
import ConstantTime.Proofs.SameFlow
import ConstantTime.Proofs.ScrubBypasses
import ConstantTime.Proofs.Search
import ConstantTime.Proofs.Secrecy
import ConstantTime.Proofs.SecretPaths
import ConstantTime.Proofs.Settings
import ConstantTime.Proofs.SettingsFields
import ConstantTime.Proofs.SettingsRoundTrip
import ConstantTime.Proofs.SkippedScrubs
import ConstantTime.Proofs.SortedFindings
import ConstantTime.Proofs.Steps
import ConstantTime.Proofs.StrongerAnnotations
import ConstantTime.Proofs.Tables
import ConstantTime.Proofs.TimeLimits
import ConstantTime.Proofs.TimedRuns
import ConstantTime.Proofs.UnscrubbedWays
import ConstantTime.Proofs.Untimed
import ConstantTime.Proofs.VariableTime
import ConstantTime.Proofs.Ways
import ConstantTime.Proofs.WellFormed
import ConstantTime.Proofs.Workers
import ConstantTime.Proofs.WritableValues
import ConstantTime.Quantity
import ConstantTime.Region
import ConstantTime.Report
import ConstantTime.Report.Console
import ConstantTime.Report.Data
import ConstantTime.Report.Sarif
import ConstantTime.Rule
import ConstantTime.Shape
import ConstantTime.Table
import ConstantTime.Taint.Fixpoint
import ConstantTime.Taint.Label
import ConstantTime.Taint.Memory
import ConstantTime.Taint.Transfer
import ConstantTime.Text.CaseData
import ConstantTime.Text.CharClass
import ConstantTime.Text.Lowercase
import ConstantTime.Text.Numeral
import ConstantTime.Text.PrintableData
import ConstantTime.Text.Quoted
import ConstantTime.Text.Utf8
