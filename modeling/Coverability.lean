import Coverability.TokenCount
import Coverability.Marking
import Coverability.Arcs
import Coverability.NetError
import Coverability.Rule.Parser
import Coverability.Net.Definition
import Coverability.Net.Command
import Coverability.Acceleration
import Coverability.Tree.Query
import Coverability.Marking.Finite
import Coverability.Search.Basic
import Coverability.Search.Termination
import Coverability.Log.Trace
import Coverability.Log.Logger
import Coverability.Json.Basic
import Coverability.Json.Token
import Coverability.Json.Trees
import Coverability.Toml.Basic
import Coverability.Toml.Document
import Coverability.Toml.Scalar
import Coverability.Toml.Reader
import Coverability.Toml.Parser
import Coverability.Settings.Text
import Coverability.Proofs.ExactFiring
import Coverability.Proofs.Pumping
import Coverability.Proofs.Lineage
import Coverability.Proofs.SearchStates
import Coverability.Proofs.SearchInvariant
import Coverability.Proofs.EarnedOmegas
import Coverability.Proofs.CoveringNodes
import Coverability.Proofs.PlaceBounds
import Coverability.Proofs.DeadTransitions
import Coverability.Proofs.Deadlocks
import Coverability.Proofs.Overflows
import Coverability.Proofs.EndingSearches
import Coverability.Proofs.BoundedTrees
import Coverability.Proofs.Subtrees
import Coverability.Proofs.NaturalRecursion
import Coverability.Proofs.ChildLinks
import Coverability.Proofs.Duplicates
import Coverability.Proofs.ExpandedNodes
import Coverability.Proofs.PathOrder
import Coverability.Proofs.NodeLimits
import Coverability.Proofs.PrunedCopies
import Coverability.Proofs.PruningPolicies
import Coverability.Proofs.RearrangedNets
import Coverability.Proofs.LargerMarkings
import Coverability.Proofs.PathGrowth
import Coverability.Proofs.OverflowingSearches
import Coverability.Proofs.RootedTrees
import Coverability.Proofs.PathFirings
import Coverability.Proofs.RebuiltNets
import Coverability.Proofs.BlockLines
import Coverability.Proofs.LeastClosures
import Coverability.Proofs.FiringResults
import Coverability.Proofs.ArcSums
import Coverability.Proofs.IncidenceSums
import Coverability.Proofs.RuleGrammar
import Coverability.Proofs.NameCharacters
import Coverability.Proofs.AtomicCommands
import Coverability.Proofs.CallsInRange
import Coverability.Proofs.ComposedSequences
import Coverability.Proofs.StateEquation
import Coverability.Proofs.MonotoneSequences
import Coverability.Proofs.JsonTokens
import Coverability.Proofs.JsonTexts
import Coverability.Proofs.JsonNets
import Coverability.Proofs.JsonTrees
import Coverability.Proofs.InterleavedEntities
import Coverability.Proofs.TreeStatistics
import Coverability.Proofs.CoherentStates
import Coverability.Proofs.ArcAdditions
