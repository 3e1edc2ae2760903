import Mathlib.Data.Rat.Floor
import Subzero.Alpha.State
import Subzero.Hail.Hail
import Subzero.Ice.Reservoir
import Subzero.Storage.Block

/-! The alpha actor from the moment its peers are live to the start of consensus: it asks
the peers for their last accepted blocks, and for every hash that enough of them report it
sends itself a message. That message is to start ice, sleet and hail only if the hash is
that of the last block in the own store. -/
namespace Subzero

/-- `protocol::Response`; the variants that alpha does not expect are one. -/
inductive TipResponse (H : Type) where
  | lastAccepted (hash : H)
  | other

/-- `ClientResponse` -/
inductive TipReply (H : Type) where
  | fanout (responses : List (TipResponse H))
  | oneshot

structure ReceiveLastAccepted (H : Type) where
  lastBlockHash : H
  lastBlock : Block H
  lastVrfOutput : H
  lastAccepted : H
  deriving DecidableEq

/-- `ice::Committee`, the answer of ice to a live committee. -/
structure IceCommittee where
  selfStakingCapacity : UInt64
  sleetValidators : HashMap Id (SocketAddr × Weight)
  hailValidators : HashMap Id (SocketAddr × UInt64)

/-- The messages to other actors. -/
inductive AlphaSend (H : Type) where
  | router (validators : Finset Id)
  | ice (totalStakingCapacity : UInt64) (validators : List (Id × UInt64))
  | sleet (validators : HashMap Id (SocketAddr × Weight)) (liveCells : HashMap H (Cell H))
  | hail (msg : LiveCommittee H)

/-- The messages that the actor posts to itself. -/
inductive AlphaMessage (H : Type) where
  | queryLastAccepted (peers : List (Id × SocketAddr))
  | receiveLastAccepted (msg : ReceiveLastAccepted H)

/-- A fanout of `GetLastAccepted`, with the block that was last when it was sent. -/
structure TipQuery (H : Type) where
  peers : List (Id × SocketAddr)
  lastBlock : Block H

/-- The fields of the actor, its own messages, the queries that wait for the network and a
record of what was sent. The addresses of the other actors are left out, but for whether
that of the router is known. -/
structure AlphaActor (H : Type) where
  tree : Storage.Db H
  router : Bool
  state : Alpha.State H
  mailbox : List (AlphaMessage H)
  requests : List (TipQuery H)
  sent : List (AlphaSend H)

/-- A delivery comes with the answer of ice, which is awaited before sleet and hail are
sent to. -/
inductive AlphaEvent (H : Type) where
  | initRouter
  | liveNetwork (livePeers : List (Id × SocketAddr))
  | deliver (i : Nat) (committee : IceCommittee)
  | reply (i : Nat) (response : Option (TipReply H))

/-- The variables of the loop over the reported hashes. -/
structure Occurrences (H : Type) where
  occurrences : HashMap H Nat
  alreadyApplied : Finset H
  notified : List (ReceiveLastAccepted H)

namespace AlphaActor
variable {H : Type} [DecidableEq H]

/-- `get_validator_set` -/
def getValidatorSet (w : AlphaActor H) : Finset Id :=
  (w.state.validators.filterMap fun (id, capacity) =>
    if 0 < capacity then some id else none).toFinset

/-- The hashes that peers report, in the order of their responses. -/
def reported (responses : List (TipResponse H)) : List H :=
  responses.filterMap fun
    | .lastAccepted hash => some hash
    | .other => none

/-- One round of the loop. The first occurrence counts as zero, and both hashes of the
message are the reported one. -/
def countHash (lastBlock : Block H) (acc : Occurrences H) (hash : H) : Occurrences H :=
  match acc.occurrences.lookup hash with
  | some count =>
    if hash ∈ acc.alreadyApplied then acc
    else
      let acc := { acc with occurrences := acc.occurrences.insert hash (count + 1) }
      if ⌈(Ice.K : ℚ) * Ice.ALPHA⌉₊ ≤ count + 1 then
        { acc with
          notified := acc.notified ++ [⟨hash, lastBlock, lastBlock.vrfOut, hash⟩]
          alreadyApplied := Insert.insert hash acc.alreadyApplied }
      else acc
  | none => { acc with occurrences := acc.occurrences.insert hash 0 }

/-- The messages for the hashes that enough peers report. -/
def agreed (lastBlock : Block H) (hashes : List H) : List (ReceiveLastAccepted H) :=
  (hashes.foldl (countHash lastBlock) ⟨∅, ∅, []⟩).notified

def notify (w : AlphaActor H) (ms : List (AlphaMessage H)) : AlphaActor H :=
  { w with mailbox := w.mailbox ++ ms }

/-- `Handler<InitRouter>` -/
def onInitRouter (w : AlphaActor H) : AlphaActor H :=
  { w with router := true, sent := w.sent ++ [.router w.getValidatorSet] }

/-- `Handler<LiveNetwork>` -/
def onLiveNetwork (w : AlphaActor H) (livePeers : List (Id × SocketAddr)) : AlphaActor H :=
  w.notify [.queryLastAccepted livePeers]

/-- `Handler<QueryLastAccepted>` up to the fanout. The hash of the last block is read, and
dropped. -/
def onQueryLastAccepted [Storage.HashBytes H] (w : AlphaActor H)
    (peers : List (Id × SocketAddr)) : Option (AlphaActor H) :=
  match Storage.getLastAccepted w.tree with
  | some (.ok (_, lastBlock)) => some { w with requests := w.requests ++ [⟨peers, lastBlock⟩] }
  | some (.error _) => none
  | none => none

/-- `Handler<QueryLastAccepted>` from the responses on. -/
def onReply (w : AlphaActor H) (q : TipQuery H) : Option (TipReply H) → AlphaActor H
  | some (.fanout responses) =>
    w.notify ((agreed q.lastBlock (reported responses)).map .receiveLastAccepted)
  | some .oneshot => w
  | none => w

/-- The cells of the state under their hashes. -/
def liveCellMap [Blake3 H] (order : Listing (CellIds H)) (w : AlphaActor H) :
    HashMap H (Cell H) :=
  (order.list w.state.liveCells.keys).foldl (fun m ids =>
    match w.state.liveCells.lookup ids with
    | some cell => m.insert cell.hash cell
    | none => m) ∅

/-- `Handler<ReceiveLastAccepted>`: what is sent. Nothing is if the chain requires
bootstrapping. -/
def receiveLastAccepted [Blake3 H] (order : Listing (CellIds H)) (committee : IceCommittee)
    (w : AlphaActor H) (msg : ReceiveLastAccepted H) : List (AlphaSend H) :=
  if msg.lastBlockHash = msg.lastAccepted then
    (if w.router then [.router w.getValidatorSet] else []) ++
      [.ice w.state.totalStakingCapacity w.state.validators,
        .sleet committee.sleetValidators (w.liveCellMap order),
        .hail {
          lastAcceptedHash := msg.lastAccepted
          lastAcceptedBlock := ⟨none, msg.lastBlock⟩
          height := w.state.height
          selfStakingCapacity := committee.selfStakingCapacity
          validators := committee.hailValidators
          vrfOut := msg.lastVrfOutput }]
  else []

variable [Blake3 H] [Storage.HashBytes H]

def handle (order : Listing (CellIds H)) (committee : IceCommittee) (w : AlphaActor H) :
    AlphaMessage H → Option (AlphaActor H)
  | .queryLastAccepted peers => w.onQueryLastAccepted peers
  | .receiveLastAccepted msg =>
    some { w with sent := w.sent ++ w.receiveLastAccepted order committee msg }

/-- One step; `none` if the event cannot happen or its handler panics. -/
def step (w : AlphaActor H) : Listing (CellIds H) × AlphaEvent H → Option (AlphaActor H)
  | (_, .initRouter) => some w.onInitRouter
  | (_, .liveNetwork livePeers) => some (w.onLiveNetwork livePeers)
  | (order, .deliver i committee) =>
    match w.mailbox[i]? with
    | none => none
    | some m => { w with mailbox := w.mailbox.eraseIdx i }.handle order committee m
  | (_, .reply i response) =>
    match w.requests[i]? with
    | none => none
    | some q => some ({ w with requests := w.requests.eraseIdx i }.onReply q response)

end AlphaActor
end Subzero
