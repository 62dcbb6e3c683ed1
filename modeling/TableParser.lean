import TableParser.Main
import TableParser.Samples
import TableParser.Proofs.Derivation
import TableParser.Proofs.Fold
import TableParser.Proofs.Run
import TableParser.Proofs.WellFormed
import TableParser.Proofs.Arena
import TableParser.Proofs.Forest
import TableParser.Proofs.First
import TableParser.Proofs.Closure
import TableParser.Proofs.Follow
import TableParser.Proofs.Automaton
import TableParser.Proofs.SlrTable
import TableParser.Proofs.ShiftReduce
import TableParser.Proofs.Terminals
import TableParser.Proofs.SlrSoundness
import TableParser.Proofs.SlrCompleteness
import TableParser.Proofs.Interpretation
import TableParser.Proofs.Replacement
import TableParser.Proofs.LeftRecursion
import TableParser.Proofs.Factoring
import TableParser.Proofs.PredictiveTable
import TableParser.Proofs.Predictive
import TableParser.Proofs.PredictiveCompleteness
import TableParser.Proofs.PredictiveTermination
import TableParser.Proofs.Discovery
import TableParser.Proofs.ViablePrefix
import TableParser.Proofs.SlrConflicts
import TableParser.Proofs.Context
import TableParser.Proofs.SlrTermination
import TableParser.Proofs.Agreement
import TableParser.Proofs.SententialForm
import TableParser.Proofs.DerivedSets
import TableParser.Proofs.PredictiveConflicts
import TableParser.Proofs.PredictiveSoundness
import TableParser.Proofs.Termination
import TableParser.Proofs.SavedForm
import TableParser.Proofs.RoundTrip
import TableParser.Proofs.LineBreaks
import TableParser.Proofs.SlrSafety
import TableParser.Proofs.SkippedLineBreaks
import TableParser.Proofs.PredictiveFaults
import TableParser.Proofs.Prefixes
import TableParser.Proofs.FirstError
import TableParser.Proofs.Loading
import TableParser.Proofs.Resaving
import TableParser.Proofs.LoadedParsers
import TableParser.Proofs.PredictSets
import TableParser.Proofs.Disjointness
import TableParser.Proofs.Truncation
import TableParser.Proofs.RepeatedConflicts
import TableParser.Proofs.AlternativeOrder
import TableParser.Proofs.FactoredGroups
import TableParser.Proofs.NormalForm
import TableParser.Proofs.PrefixTrees
import TableParser.Proofs.Renumbering
import TableParser.Proofs.Calls
import TableParser.Proofs.StackShape
import TableParser.Proofs.Cores
import TableParser.Proofs.Settling
import TableParser.Proofs.Schedules
import TableParser.Proofs.Drafts
import TableParser.Proofs.WrittenTexts
import TableParser.Proofs.Lexemes
import TableParser.Proofs.ScannedTexts
import TableParser.Proofs.DotPositions
import TableParser.Proofs.SortedAlternatives
import TableParser.Proofs.Handles
