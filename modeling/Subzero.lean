import Subzero.Lib.HashMap
import Subzero.Lib.Outcome
import Subzero.Lib.Traverse
import Subzero.Lib.Run
import Subzero.Lib.Store
import Subzero.Lib.Drain
import Subzero.Lib.Kahn
import Subzero.Lib.BigEndian
import Subzero.Lib.Codec
import Subzero.Lib.Build
import Subzero.Lib.Supply
import Subzero.Lib.PriorityQueue
import Subzero.Cell
import Subzero.Ideal
import Subzero.Graph.Dag
import Subzero.Graph.Links
import Subzero.Graph.Removal
import Subzero.Graph.Transpose
import Subzero.Graph.Mirror
import Subzero.Graph.Conviction
import Subzero.Graph.Mutations
import Subzero.Graph.ConflictGraph
import Subzero.Graph.Spenders
import Subzero.Graph.Conflicts
import Subzero.Graph.Insertion
import Subzero.Graph.Operations
import Subzero.Graph.Shrink
import Subzero.Graph.Preference
import Subzero.Graph.Detection
import Subzero.Graph.Confidence
import Subzero.Graph.Representation
import Subzero.Graph.Refusal
import Subzero.Graph.TopologicalSort
import Subzero.Graph.Traversals
import Subzero.Graph.Iterator
import Subzero.Graph.DependencyGraph
import Subzero.Graph.Ordering
import Subzero.Graph.Placement
import Subzero.Sleet.Tx
import Subzero.Sleet.Bounded
import Subzero.Sleet.Capacity
import Subzero.Sleet.Sleet
import Subzero.Sleet.Selection
import Subzero.Sleet.Handlers
import Subzero.Sleet.Actor
import Subzero.Sleet.Receive
import Subzero.Sleet.Query
import Subzero.Sleet.Acceptance
import Subzero.Sleet.Memo
import Subzero.Sleet.Sweep
import Subzero.Sleet.Steps
import Subzero.Sleet.Accepted
import Subzero.Sleet.Sample
import Subzero.Sleet.Finality
import Subzero.Sleet.DoubleSpend
import Subzero.Sleet.Closure
import Subzero.Sleet.Voting
import Subzero.Sleet.Pruning
import Subzero.Sleet.RemoveConflicts
import Subzero.Sleet.Trim
import Subzero.Sleet.Agreement
import Subzero.Sleet.Alignment
import Subzero.Sleet.Reissue
import Subzero.Sleet.Exchange
import Subzero.Sleet.Frontier
import Subzero.Sleet.Parents
import Subzero.Sleet.Waiting
import Subzero.Sleet.Fetch
import Subzero.Sleet.Joining
import Subzero.Sleet.Liveness
import Subzero.Hail.Block
import Subzero.Hail.ConflictMap
import Subzero.Hail.Committee
import Subzero.Hail.Hail
import Subzero.Hail.Actor
import Subzero.Hail.Sample
import Subzero.Hail.Steps
import Subzero.Hail.Confidence
import Subzero.Hail.Finality
import Subzero.Hail.Tip
import Subzero.Hail.Tree
import Subzero.Hail.Voting
import Subzero.Hail.Ancestry
import Subzero.Hail.Growth
import Subzero.Hail.Refusal
import Subzero.Hail.Producers
import Subzero.Hail.Selection
import Subzero.Hail.Ties
import Subzero.Hail.Convergence
import Subzero.Hail.Depth
import Subzero.Ballots
import Subzero.Node
import Subzero.Alpha.State
import Subzero.Alpha.Transition
import Subzero.Alpha.Spending
import Subzero.Alpha.Coinbase
import Subzero.Alpha.Minting
import Subzero.Alpha.Permutation
import Subzero.Alpha.Totals
import Subzero.Ice.Reservoir
import Subzero.Ice.Counter
import Subzero.Ice.Quorums
import Subzero.Ice.Actor
import Subzero.Ice.Sampling
import Subzero.Ice.Answers
import Subzero.Ice.Alerts
import Subzero.Ice.Dissemination
import Subzero.Storage.Block
import Subzero.Storage.Order
import Subzero.Encoding
import Subzero.Alpha.Actor
import Subzero.Alpha.Bootstrap
import Subzero.Alpha.Operation
import Subzero.Alpha.Fees
import Subzero.Alpha.Execution
import Subzero.Alpha.Genesis
import Subzero.Alpha.Network
import Subzero.Server.Router
import Subzero.Storage.Bytes
import Subzero.Ice.Committee
import Subzero.View
