import SkipGraph.Transition
import SkipGraph.StrictOrder
import SkipGraph.CallEffects
import SkipGraph.OwnSlots
import SkipGraph.Backpointers
import SkipGraph.Forwarding
import SkipGraph.Search
import SkipGraph.LinkService
import SkipGraph.Collision
import SkipGraph.Connectivity
import SkipGraph.ConcurrentSearch
import SkipGraph.IndependentJoins
import SkipGraph.SlotMap
import SkipGraph.LocalSearch
import SkipGraph.TableWrites
import SkipGraph.Mirror
import SkipGraph.Relaying
import SkipGraph.Insertion
import SkipGraph.Waiters
import SkipGraph.Tokens
import SkipGraph.JoinSuccess
import SkipGraph.IdentifierOrder
import SkipGraph.PrefixTree
import SkipGraph.BitStrings
import SkipGraph.BuiltGraph
import SkipGraph.Quiescence
import SkipGraph.Snapshots
import SkipGraph.Repair
import SkipGraph.HubRegistry
import SkipGraph.SortedNodes
import SkipGraph.ParallelReads
