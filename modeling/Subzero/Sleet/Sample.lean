import Subzero.Ideal
import Subzero.Lib.Run
import Subzero.Sleet.Actor

/-! A node whose committee is one validator, with as many coins as are asked for.
The runs that show where a property fails are runs of this node. -/
namespace Subzero.Actor

def node : Id := ⟨0⟩
def peer : Id := ⟨1⟩

def sample : Actor Digest := .started (.new ascendingOrder node "node" [])

/-- A coin for every number below `n`. -/
def coins (n : Nat) : HashMap Digest (Cell Digest) :=
  (List.range n).foldl (fun m i => m.insert (mint (.ofNat i)).hash (mint (.ofNat i))) ∅

/-- The committee and the coins arrive. -/
def joins (n : Nat) : Event Digest :=
  .liveCommittee ((∅ : HashMap Id (SocketAddr × Weight)).insert peer ("peer", 1)) (coins n)

/-- A transfer of coin `i`, with its parents in the DAG. -/
def transfer (parents : List (Tx Digest)) (i : Nat) : Tx Digest :=
  .new (parents.map Tx.hash) (pay [mint (.ofNat i)] 7)

def receive (tx : Tx Digest) : Event Digest := .queryTx peer "peer" tx

def answer (outcome : Bool) (tx : Tx Digest) : Event Digest :=
  .reply 0 (some (.fanout [.queryTxAck peer tx.hash outcome]))

/-- The query of a transaction whose `FreshTx` message is at position `i`. Its
completion is the last message, at position `last`. -/
def query (i last : Nat) (outcome : Bool) (tx : Tx Digest) : List (Event Digest) :=
  [.deliver i, answer outcome tx, .deliver last]

/-- The queries, one after the other, of transactions that were received together.
Their `FreshTx` messages are at `i` and after; `last` is the position of the last
message of the mailbox. -/
def queries (i last : Nat) (outcome : Bool) : List (Tx Digest) → List (Event Digest)
  | [] => []
  | tx :: txs => query i last outcome tx ++ queries (i + 1) (last - 1) outcome txs

/-- Receive transactions and query each of them at once, with `n` messages in the
mailbox before. Every one of them leaves a `CheckPending` message behind. -/
def poll (n : Nat) (outcome : Bool) : List (Tx Digest) → List (Event Digest)
  | [] => []
  | tx :: txs => receive tx :: query n (n + 1) outcome tx ++ poll (n + 1) outcome txs

/-- Run the node in ascending iteration order. -/
def runSample (events : List (Event Digest)) :
    Option (List (Actor Digest × HashOrder Digest × Event Digest) × Actor Digest) :=
  exec step sample (events.map fun e => (ascendingOrder, e))

end Subzero.Actor
