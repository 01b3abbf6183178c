import CanonicalLR.Action
import CanonicalLR.Analysis
import CanonicalLR.AuthoringError
import CanonicalLR.Automaton
import CanonicalLR.Builder
import CanonicalLR.CharacterClass
import CanonicalLR.Closure
import CanonicalLR.Collection
import CanonicalLR.Combinator
import CanonicalLR.Command
import CanonicalLR.Conflict
import CanonicalLR.Derivation
import CanonicalLR.DerivationTree
import CanonicalLR.DisplayWidth
import CanonicalLR.Event
import CanonicalLR.FixedPoint
import CanonicalLR.Grammar
import CanonicalLR.Grid
import CanonicalLR.Inspection
import CanonicalLR.Item
import CanonicalLR.ItemSet
import CanonicalLR.Machine
import CanonicalLR.OrderedSet
import CanonicalLR.Outline
import CanonicalLR.Reachability
import CanonicalLR.Rule
import CanonicalLR.Saturation
import CanonicalLR.SemanticValue
import CanonicalLR.Sentence
import CanonicalLR.Symbol
import CanonicalLR.SymbolTable
import CanonicalLR.Table
import CanonicalLR.Text
import CanonicalLR.Value
import CanonicalLR.WellFormed
import CanonicalLR.Proofs.AnalysisExactness
import CanonicalLR.Proofs.CanonicalCollection
import CanonicalLR.Proofs.TableCells
import CanonicalLR.Proofs.MachineRuns
import CanonicalLR.Proofs.ViablePaths
import CanonicalLR.Proofs.BreadthFirst
import CanonicalLR.Proofs.ParserSoundness
import CanonicalLR.Proofs.TreeRuns
import CanonicalLR.Proofs.ParserCompleteness
import CanonicalLR.Proofs.ViablePrefixes
import CanonicalLR.Proofs.ErrorDetection
import CanonicalLR.Proofs.AcceptedValues
import CanonicalLR.Proofs.ItemValidity
import CanonicalLR.Proofs.OpenRules
import CanonicalLR.Proofs.SafeDriving
import CanonicalLR.Proofs.Termination
import CanonicalLR.Proofs.Progress
import CanonicalLR.Operators
import CanonicalLR.Proofs.Grouping
import CanonicalLR.Proofs.Settling
import CanonicalLR.Proofs.OperatorTables
import CanonicalLR.Proofs.OperatorPrecedence
import CanonicalLR.Proofs.TableContents
import CanonicalLR.Loop
import CanonicalLR.Proofs.GenerationEnds
import CanonicalLR.Renaming
import CanonicalLR.Proofs.Ownership
import CanonicalLR.Proofs.Embeddings
import CanonicalLR.Proofs.EmbeddedCollections
import CanonicalLR.Proofs.RuleOrder
import CanonicalLR.Proofs.AuthoringFrames
import CanonicalLR.Proofs.Conservation
import CanonicalLR.Checked
import CanonicalLR.Proofs.SafeGeneration
import CanonicalLR.Proofs.Texts
import CanonicalLR.Proofs.Representatives
import CanonicalLR.Proofs.FollowExactness
import CanonicalLR.Proofs.Ambiguities
import CanonicalLR.Proofs.LeastClosure
import CanonicalLR.Proofs.FollowingLookaheads
import CanonicalLR.Series
import CanonicalLR.Proofs.Synthesis
import CanonicalLR.Proofs.Unfoldings
import CanonicalLR.Proofs.Repetitions
import CanonicalLR.Proofs.TerminatedSeries
import CanonicalLR.Proofs.SeparatedSeries
import CanonicalLR.Proofs.ExplicitEnd
import CanonicalLR.Proofs.StackDiscipline
import CanonicalLR.Proofs.Rebuilding
import CanonicalLR.Proofs.Refusals
