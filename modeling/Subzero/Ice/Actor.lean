import Subzero.Ice.Reservoir

/-! The ice actor: it answers pings, samples queries, and judges from the answers of its
peers whether the network is live. A change of that judgement is an alert to alpha. -/
namespace Subzero.Ice

structure Query where
  peerId : Id
  peerIp : SocketAddr
  choice : Choice
  deriving DecidableEq

structure Ack where
  id : Id
  outcomes : List Outcome

structure Switch where
  flipped : Bool
  bootstrapped : Bool
  deriving DecidableEq

inductive Alert where
  | liveNetwork (selfId : Id) (livePeers : List (Id × SocketAddr))
  | faultyNetwork
  deriving DecidableEq

structure Actor where
  id : Id
  ip : SocketAddr
  reservoir : Reservoir
  bootstrapped : Bool

namespace Actor

def new (id : Id) (ip : SocketAddr) (reservoir : Reservoir) : Actor := ⟨id, ip, reservoir, false⟩

/-- A peer that is asked about itself is live. A peer without a decision gets the
choice of the query, which `set_choice` does not record as there is no entry. -/
def processQuery (reservoir : Reservoir) (selfId : Id) (query : Query) : Outcome × Reservoir :=
  if query.peerId = selfId then (⟨query.peerId, .live⟩, reservoir)
  else
    match reservoir.getDecision query.peerId with
    | some e => (⟨query.peerId, e.choice⟩, reservoir)
    | none => (⟨query.peerId, query.choice⟩, reservoir.setChoice query.peerId query.choice)

def processQueries (selfId : Id) : List Query → Reservoir → List Outcome × Reservoir
  | [], r => ([], r)
  | query :: queries, r =>
    let (outcome, r) := processQuery r selfId query
    let (outcomes, r) := processQueries selfId queries r
    (outcome :: outcomes, r)

def ping (ice : Actor) (queries : List Query) : Ack × Actor :=
  let (outcomes, reservoir) := processQueries ice.id queries ice.reservoir
  (⟨ice.id, outcomes⟩, { ice with reservoir := reservoir })

def bootstrap (ice : Actor) (peers : List (Id × SocketAddr)) : Actor :=
  { ice with reservoir := peers.foldl (fun r p => r.insert p.1 p.2 .live 0) ice.reservoir }

/-- The queries are listed in the order of the map of samples. -/
def sampleQueries (orders : Nat → Listing Id) (order : Listing Id) (ice : Actor)
    (sample : Id × SocketAddr) : List Query × Actor :=
  let reservoir := ice.reservoir.insertNew sample.1 sample.2 .live 0
  if 0 < reservoir.len then
    let (samples, reservoir) := reservoir.sample orders
    let queries := (order.list samples.keys).filterMap fun id =>
      (samples.lookup id).map fun e => ⟨id, e.ip, e.choice⟩
    (queries, { ice with reservoir := reservoir })
  else ([], { ice with reservoir := reservoir })

def pingSuccess (ice : Actor) (ack : Ack) : Switch × Actor :=
  let ((isBootstrapped, flipped), reservoir) := ice.reservoir.fill ack.id ack.outcomes
  let ice := { ice with reservoir := reservoir }
  if isBootstrapped then
    if ice.bootstrapped then (⟨flipped, true⟩, ice)
    else (⟨true, true⟩, { ice with bootstrapped := true })
  else
    if ice.bootstrapped then (⟨true, false⟩, { ice with bootstrapped := false })
    else (⟨false, false⟩, ice)

/-- Returns whether the failure made the network faulty. -/
def pingFailure (ice : Actor) (id : Id) : Bool × Actor :=
  let (isBootstrapped, reservoir) := ice.reservoir.updateChoice id .faulty
  (!isBootstrapped && ice.bootstrapped, { ice with reservoir := reservoir })

/-- The live peers are fetched after the answer is processed. -/
def sendPingSuccess (order : Listing Id) (ice : Actor) (ack : Ack) : Option Alert × Actor :=
  let (switch, ice) := ice.pingSuccess ack
  if switch.flipped then
    if switch.bootstrapped then
      (some (.liveNetwork ice.id (ice.reservoir.getLivePeers order)), ice)
    else (some .faultyNetwork, ice)
  else (none, ice)

def sendPingFailure (ice : Actor) (id : Id) : Option Alert × Actor :=
  let (flipped, ice) := ice.pingFailure id
  (if flipped then some .faultyNetwork else none, ice)

end Actor

/-- The messages that the actor handles and that can change it. -/
inductive Message where
  | ping (queries : List Query)
  | bootstrap (peers : List (Id × SocketAddr))
  | sampleQueries (orders : Nat → Listing Id) (order : Listing Id) (sample : Id × SocketAddr)
  | pingSuccess (order : Listing Id) (ack : Ack)
  | pingFailure (id : Id)

/-- Handle a message, and alert alpha if the sender of the message does so. -/
def Actor.handle (ice : Actor) : Message → Option Alert × Actor
  | .ping queries => (none, (ice.ping queries).2)
  | .bootstrap peers => (none, ice.bootstrap peers)
  | .sampleQueries orders order sample => (none, (ice.sampleQueries orders order sample).2)
  | .pingSuccess order ack => ice.sendPingSuccess order ack
  | .pingFailure id => ice.sendPingFailure id

end Subzero.Ice
