import ChainGrammar.Automaton.Listing
import ChainGrammar.Chain
import ChainGrammar.CommandLine.Program
import ChainGrammar.Expr.Listing
import ChainGrammar.Expr.Render
import ChainGrammar.Graph.Listing
import ChainGrammar.HiddenMarkov
import ChainGrammar.Sample.Random
import ChainGrammar.SortedSet.Listing
import ChainGrammar.Symbol
import ChainGrammar.Tagged
import ChainGrammar.Proofs.CollectedSets
import ChainGrammar.Proofs.Paths
import ChainGrammar.Proofs.Edges
import ChainGrammar.Proofs.FirstMet
import ChainGrammar.Proofs.Numbering
import ChainGrammar.Proofs.Spreading
import ChainGrammar.Proofs.Knots
import ChainGrammar.Proofs.SearchMoves
import ChainGrammar.Proofs.SearchPath
import ChainGrammar.Proofs.SearchSound
import ChainGrammar.Proofs.LowLinkPath
import ChainGrammar.Proofs.LowLinkSteps
import ChainGrammar.Proofs.LowLinks
import ChainGrammar.Proofs.Components
import ChainGrammar.Proofs.Condensation
import ChainGrammar.Proofs.SlotPlacement
import ChainGrammar.Proofs.Slots
import ChainGrammar.Proofs.SlotGraph
import ChainGrammar.Proofs.SlotGrouping
import ChainGrammar.Proofs.Permutations
import ChainGrammar.Proofs.Placing
import ChainGrammar.Proofs.TopologicalOrder
import ChainGrammar.Proofs.Leftover
import ChainGrammar.Proofs.LeastOrder
import ChainGrammar.Proofs.ReportedNode
import ChainGrammar.Proofs.RecognisedOrders
import ChainGrammar.Proofs.BuiltPartitions
import ChainGrammar.Proofs.Quotients
import ChainGrammar.Proofs.BuiltGraphs
import ChainGrammar.Proofs.Learning
import ChainGrammar.Proofs.AutomatonGraph
import ChainGrammar.Proofs.Evidence
import ChainGrammar.Proofs.Counters
import ChainGrammar.Proofs.Interchange
import ChainGrammar.Proofs.Summary
import ChainGrammar.Proofs.Language
import ChainGrammar.Proofs.ChainSteps
import ChainGrammar.Proofs.LearningOrder
import ChainGrammar.Proofs.ChainShape
import ChainGrammar.Proofs.Walks
import ChainGrammar.Proofs.WellFormedAutomata
import ChainGrammar.Proofs.ChainLanguage
import ChainGrammar.Proofs.Layers
import ChainGrammar.Proofs.Recovery
import ChainGrammar.Proofs.Familiar
import ChainGrammar.Proofs.Rendering
import ChainGrammar.Proofs.RenderedSymbols
import ChainGrammar.Proofs.Reading
import ChainGrammar.Proofs.RoundTrip
import ChainGrammar.Proofs.JoinedTexts
import ChainGrammar.Proofs.ValidTexts
import ChainGrammar.Proofs.WellFormedSamples
import ChainGrammar.Proofs.SymbolCounts
import ChainGrammar.Proofs.Runs
import ChainGrammar.Proofs.Draws
import ChainGrammar.Proofs.RandomSamples
import ChainGrammar.Proofs.ModelDimensions
