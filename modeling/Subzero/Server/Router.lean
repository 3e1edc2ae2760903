import Subzero.Alpha.Network
import Subzero.Ice.Answers
import Subzero.Node
import Subzero.Sleet.Exchange
import Subzero.Sleet.Joining
import Subzero.View

/-! The router of a node. Requests of peers reach its actors through it, and some of them are
for validators only. Who is a validator the router hears from alpha, which also
starts sleet and hail. The id of a peer is checked if connections are secured. -/
namespace Subzero

namespace Server

/-- `protocol::Request`. -/
inductive Request (H : Type) where
  | version (id : Id) (ip : SocketAddr)
  | ping (queries : List Ice.Query)
  | getLastAccepted
  | getAncestors
  | getNodeStatus
  | getCellHashes
  | getAcceptedCellHashes
  | getCell (cellHash : H)
  | getAcceptedCell (cellHash : H)
  | generateTx (cell : Cell H)
  | queryTx (id : Id) (ip : SocketAddr) (tx : Tx H)
  | getTxAncestors (txHash : H)
  | getAcceptedFrontier
  | fetchTx (txHash : H)
  | getLiveFrontier
  | getBlock (blockHash : H)
  | getBlockByHeight (blockHeight : BlockHeight)
  | queryBlock (id : Id) (block : HailBlock H)

structure NodeStatus where
  bootstrapped : Bool
  height : BlockHeight
  peers : List (Id × SocketAddr × Ice.Choice)
  validators : List (Id × SocketAddr × Weight)

/-- `protocol::Response`. -/
inductive Response (H : Type) where
  | versionAck (ack : VersionAck)
  | ack (ack : Ice.Ack)
  | lastAccepted (hash : H)
  | cellHashes (ids : List H)
  | acceptedCellHashes (ids : List H)
  | nodeStatus (status : NodeStatus)
  | cellAck (cell : Option (Cell H))
  | acceptedCellAck (cell : Option (Cell H))
  | generateTxAck (cellHash : Option H)
  | queryTxAck (id : Id) (txHash : H) (outcome : Bool)
  | txAncestors (ancestors : List (Tx H))
  | acceptedFrontier (frontier : Finset H)
  | fetchedTx (tx : Option (Tx H))
  | liveFrontier (frontier : Finset H)
  | blockAck (block : Option (Block H))
  | queryBlockAck (id : Id) (blockHash : H) (outcome : Bool)
  | unknown
  | requestRefused

/-- The iteration orders in force while a request is handled, and a bound on the sort of
ancestors. -/
structure ServeOrder (H : Type) where
  view : Listing (Id × SocketAddr)
  ice : Listing Id
  sleet : HashOrder H
  hail : HailOrder H
  fuel : Nat

end Server

/-- The router with the actors it has the addresses of. `tls` is whether connections are
secured, and `posted` are the messages of alpha that were not handled. -/
structure Server (H : Type) where
  tls : Bool
  view : View
  ice : Ice.Actor
  alpha : AlphaActor H
  posted : List (AlphaSend H)
  validators : Finset Id
  node : Node H

namespace Server

inductive Event (H : Type) where
  | view (m : View.Message)
  | ice (m : Ice.Message)
  | alpha (order : Listing (CellIds H)) (e : AlphaEvent H)
  | deliver (order : ServeOrder H) (i : Nat)
  | request (order : ServeOrder H) (peer : Id) (request : Request H)
  | node (e : NodeEvent H)

variable {H : Type} [LinearOrder H] [Blake3 H] [BlockDigest H] [Sortition H]

omit [LinearOrder H] [Blake3 H] [BlockDigest H] [Sortition H] in
/-- A peer that is to be checked and is no validator. -/
def refuses (s : Server H) (peer : Id) : Bool := s.tls && !decide (peer ∈ s.validators)

/-- The answer to a query of a transaction, unless it has to wait. -/
def queryTx (order : ServeOrder H) (s : Server H) (id : Id) (ip : SocketAddr) (tx : Tx H) :
    Option (Option (Response H) × Server H) :=
  (s.node.step (.sleet order.sleet (.queryTx id ip tx))).map fun node =>
    ((node.sleet.votes[s.node.sleet.votes.length]?).map fun vote =>
      .queryTxAck s.node.sleet.sleet.nodeId vote.txHash vote.outcome, { s with node := node })

def queryBlock (order : ServeOrder H) (s : Server H) (block : HailBlock H) :
    Option (Option (Response H) × Server H) :=
  (s.node.step (.hail order.hail (.queryBlock block))).map fun node =>
    ((node.hail.votes[s.node.hail.votes.length]?).map fun vote =>
      .queryBlockAck s.node.hail.hail.nodeId vote.block.hash vote.outcome, { s with node := node })

omit [LinearOrder H] [BlockDigest H] [Sortition H] in
def generateTx [DecidableEq H] (order : ServeOrder H) (s : Server H) (cell : Cell H) :
    Option (Option (Response H) × Server H) :=
  (s.node.sleet.onGenerateTx order.sleet cell).map fun (ack, sleet) =>
    (some (.generateTxAck ack), { s with node.sleet := sleet })

omit [Blake3 H] [BlockDigest H] [Sortition H] [LinearOrder H] in
/-- The first block of the height, in the order of the map. -/
def getBlockByHeight [DecidableEq H] (order : ServeOrder H) (s : Hail H) (height : BlockHeight) :
    Option (Block H) :=
  ((order.hail.hashes.list s.liveBlocks.keys).filterMap s.liveBlocks.lookup).find? fun block =>
    block.height = height

omit [Blake3 H] [BlockDigest H] [Sortition H] [LinearOrder H] in
def nodeStatus (order : ServeOrder H) (s : Server H) : NodeStatus where
  bootstrapped := s.ice.bootstrapped
  height := s.alpha.state.height
  peers := (order.ice.list s.ice.reservoir.decisions.keys).filterMap fun id =>
    (s.ice.reservoir.decisions.lookup id).map fun entry => (id, entry.ip, entry.choice)
  validators := (order.sleet.ids.list s.node.sleet.sleet.committee.keys).filterMap fun id =>
    (s.node.sleet.sleet.committee.lookup id).map fun member => (id, member)

variable [Storage.HashBytes H]

/-- `Handler<RouterRequest>`: the response, unless it comes later. `none` is a panic. -/
def handle (order : ServeOrder H) (s : Server H) (peer : Id) :
    Request H → Option (Option (Response H) × Server H)
  | .version id ip =>
    let (ack, view) := s.view.version order.view id ip
    some (some (.versionAck ack), { s with view := view })
  | .ping queries =>
    let (ack, ice) := s.ice.ping queries
    some (some (.ack ack), { s with ice := ice })
  | .getLastAccepted =>
    s.alpha.onGetLastAccepted.map fun hash => (some (.lastAccepted hash), s)
  | .getCellHashes =>
    some (some (.cellHashes (order.sleet.hashes.list s.node.sleet.sleet.liveCells.elems.keys)), s)
  | .getCell hash => some (some (.cellAck (s.node.sleet.sleet.liveCells.elems.lookup hash)), s)
  | .getAcceptedCellHashes =>
    some (some (.acceptedCellHashes
      (order.sleet.hashes.list s.node.sleet.sleet.acceptedTxs.elems)), s)
  | .getAcceptedCell hash =>
    some (some (.acceptedCellAck ((s.node.sleet.sleet.fetchTx hash).map Tx.cell)), s)
  | .generateTx cell => generateTx order s cell
  | .queryTx id ip tx =>
    if s.refuses peer then some (some .requestRefused, s) else queryTx order s id ip tx
  | .getTxAncestors hash =>
    if s.refuses peer then some (some .requestRefused, s)
    else (s.node.sleet.sleet.getTxAncestors order.sleet order.fuel hash).map fun ancestors =>
      (some (.txAncestors ancestors), s)
  | .getAcceptedFrontier =>
    some (some (.acceptedFrontier s.node.sleet.sleet.acceptedFrontier), s)
  | .fetchTx hash => some (some (.fetchedTx (s.node.sleet.sleet.fetchTx hash)), s)
  | .getLiveFrontier =>
    some (some (.liveFrontier (s.node.sleet.sleet.dag.leaves order.sleet.hashes).toFinset), s)
  | .getBlock hash => some (some (.blockAck (s.node.hail.hail.getBlock hash)), s)
  | .getBlockByHeight height =>
    some (some (.blockAck (getBlockByHeight order s.node.hail.hail height)), s)
  | .queryBlock _ block =>
    if s.refuses peer then some (some .requestRefused, s) else queryBlock order s block
  | .getNodeStatus => some (some (.nodeStatus (nodeStatus order s)), s)
  | .getAncestors => some (some .unknown, s)

omit [Storage.HashBytes H] in
/-- A message of alpha arrives at the router, at ice, which only answers with a committee, at
sleet or at hail. -/
def receive (order : ServeOrder H) (s : Server H) : AlphaSend H → Option (Server H)
  | .router validators => some { s with validators := validators }
  | .ice _ _ => some s
  | .sleet validators liveCells =>
    (s.node.step (.sleet order.sleet (.liveCommittee validators liveCells))).map fun node =>
      { s with node := node }
  | .hail msg =>
    (s.node.step (.hail order.hail (.liveCommittee msg))).map fun node => { s with node := node }

omit [LinearOrder H] [Blake3 H] [BlockDigest H] [Sortition H] [Storage.HashBytes H] in
/-- What the node does on its own, with its messages and the replies to its requests. -/
def internal : NodeEvent H → Bool
  | .sleet _ (.deliver _) => true
  | .sleet _ (.reply _ _) => true
  | .sleet _ (.timeout _) => true
  | .sleet _ (.fetch _ _) => true
  | .hail _ (.deliver _) => true
  | .hail _ (.reply _ _) => true
  | .acceptedCells _ => true
  | _ => false

/-- One step; `none` if the event cannot happen or its handler panics. -/
def step (s : Server H) : Event H → Option (Server H)
  | .view m => (s.view.step m).map fun view => { s with view := view }
  | .ice m => some { s with ice := (s.ice.handle m).2 }
  | .alpha order e =>
    (s.alpha.step (order, e)).map fun alpha =>
      { s with alpha := alpha, posted := s.posted ++ alpha.sent.drop s.alpha.sent.length }
  | .deliver order i =>
    match s.posted[i]? with
    | none => none
    | some m => { s with posted := s.posted.eraseIdx i }.receive order m
  | .request order peer request =>
    (s.handle order peer request).map Prod.snd
  | .node e => if internal e then (s.node.step e).map fun node => { s with node := node } else none

end Server

namespace AlphaActor
variable {H : Type}

/-- A message to the router says who the validators are. -/
def Reflects (w : AlphaActor H) : AlphaSend H → Prop
  | .router validators => validators = w.getValidatorSet
  | _ => True

theorem Reflects.of_state {w w' : AlphaActor H} (same : w'.state = w.state) {m : AlphaSend H}
    (reflects : w'.Reflects m) : w.Reflects m := by
  cases m with
  | router validators =>
    refine reflects.trans ?_
    unfold getValidatorSet
    rw [same]
  | _ => exact trivial

variable [LinearOrder H] [Blake3 H]

theorem receiveLastAccepted_reflects {w : AlphaActor H} {order : Listing (CellIds H)}
    {committee : IceCommittee} {msg : ReceiveLastAccepted H} :
    ∀ m ∈ w.receiveLastAccepted order committee msg, w.Reflects m := by
  intro m sent
  unfold receiveLastAccepted at sent
  split at sent
  · rcases List.mem_append.mp sent with routed | started
    · split at routed
      · rw [List.mem_singleton.mp routed]
        exact rfl
      · cases routed
    · simp only [List.mem_cons, List.not_mem_nil, or_false] at started
      rcases started with rfl | rfl | rfl <;> exact trivial
  · cases sent

/-- The state stays what it is, and what is sent is about it. -/
theorem step_reflects [Storage.HashBytes H] {w w' : AlphaActor H}
    {x : Listing (CellIds H) × AlphaEvent H} (taken : w.step x = some w') :
    w'.state = w.state ∧ ∃ new, w'.sent = w.sent ++ new ∧ ∀ m ∈ new, w.Reflects m := by
  obtain ⟨order, e⟩ := x
  cases e with
  | initRouter =>
    cases taken
    refine ⟨rfl, _, rfl, fun m sent => ?_⟩
    rw [List.mem_singleton.mp sent]
    exact rfl
  | liveNetwork livePeers =>
    cases taken
    exact ⟨rfl, [], (List.append_nil _).symm, by simp⟩
  | deliver i committee =>
    simp only [AlphaActor.step] at taken
    split at taken
    · cases taken
    · rename_i m found
      cases m with
      | queryLastAccepted peers =>
        simp only [AlphaActor.handle, onQueryLastAccepted] at taken
        split at taken
        · cases taken
          exact ⟨rfl, [], (List.append_nil _).symm, by simp⟩
        · cases taken
        · cases taken
      | receiveLastAccepted msg =>
        cases taken
        exact ⟨rfl, _, rfl, receiveLastAccepted_reflects⟩
  | reply i response =>
    simp only [AlphaActor.step] at taken
    split at taken
    · cases taken
    · cases taken
      rcases response with _ | _ | _ <;> exact ⟨rfl, [], (List.append_nil _).symm, by simp⟩

end AlphaActor

namespace Server
variable {H : Type} [LinearOrder H] [Blake3 H] [BlockDigest H] [Sortition H]
  [Storage.HashBytes H]

/-- The router knows of no validators, or of those of alpha, whose state stays. -/
structure Informed (w : AlphaActor H) (s : Server H) : Prop where
  tls : s.tls = true
  state : s.alpha.state = w.state
  posted : ∀ m ∈ s.posted, w.Reflects m
  validators : s.validators = ∅ ∨ s.validators = w.getValidatorSet

omit [Storage.HashBytes H] in
theorem receive_keeps {order : ServeOrder H} {s s' : Server H} {m : AlphaSend H}
    (received : s.receive order m = some s') :
    s'.tls = s.tls ∧ s'.alpha = s.alpha ∧ s'.posted = s.posted ∧
      (s'.validators = s.validators ∨ m = .router s'.validators) := by
  cases m with
  | router validators =>
    cases received
    exact ⟨rfl, rfl, rfl, .inr rfl⟩
  | ice total validators =>
    cases received
    exact ⟨rfl, rfl, rfl, .inl rfl⟩
  | sleet validators liveCells =>
    obtain ⟨node, _, rfl⟩ := Option.map_eq_some_iff.mp received
    exact ⟨rfl, rfl, rfl, .inl rfl⟩
  | hail msg =>
    obtain ⟨node, _, rfl⟩ := Option.map_eq_some_iff.mp received
    exact ⟨rfl, rfl, rfl, .inl rfl⟩

section Handling
variable {order : ServeOrder H} {s s' : Server H} {peer : Id} {request : Request H}
  {response : Option (Response H)}

omit [LinearOrder H] [Blake3 H] [BlockDigest H] [Sortition H] [Storage.HashBytes H] in
theorem guarded {served : Option (Option (Response H) × Server H)}
    (handled : (if s.refuses peer then some (some .requestRefused, s) else served) =
      some (response, s')) :
    (s.refuses peer = true ∧ response = some .requestRefused ∧ s' = s) ∨
      (s.refuses peer ≠ true ∧ served = some (response, s')) := by
  split at handled
  · rename_i refused
    cases handled
    exact .inl ⟨refused, rfl, rfl⟩
  · rename_i allowed
    exact .inr ⟨allowed, handled⟩

/-- A request leaves all but view, ice, sleet and hail as it is. -/
theorem handle_keeps (handled : s.handle order peer request = some (response, s')) :
    ∃ view ice node, s' = { s with view := view, ice := ice, node := node } := by
  cases request with
  | queryTx _ _ _ | queryBlock _ _ | getTxAncestors _ =>
    rcases guarded handled with ⟨_, _, rfl⟩ | ⟨_, served⟩
    · exact ⟨_, _, _, rfl⟩
    · obtain ⟨_, _, same⟩ := Option.map_eq_some_iff.mp served
      cases same
      exact ⟨_, _, _, rfl⟩
  | generateTx _ | getLastAccepted =>
    obtain ⟨_, _, same⟩ := Option.map_eq_some_iff.mp handled
    cases same
    exact ⟨_, _, _, rfl⟩
  | _ =>
    cases handled
    exact ⟨_, _, _, rfl⟩

end Handling

theorem Informed.step {w : AlphaActor H} {s s' : Server H} {e : Event H}
    (informed : Informed w s) (taken : s.step e = some s') :
    Informed w s' ∧ (s.validators = w.getValidatorSet → s'.validators = w.getValidatorSet) := by
  obtain ⟨tls, state, posted, validators⟩ := informed
  cases e with
  | view m =>
    obtain ⟨view, _, rfl⟩ := Option.map_eq_some_iff.mp taken
    exact ⟨⟨tls, state, posted, validators⟩, id⟩
  | ice m =>
    cases taken
    exact ⟨⟨tls, state, posted, validators⟩, id⟩
  | alpha order e =>
    obtain ⟨alpha, moved, rfl⟩ := Option.map_eq_some_iff.mp taken
    obtain ⟨same, new, sent, reflects⟩ := AlphaActor.step_reflects moved
    refine ⟨⟨tls, same.trans state, fun m listed => ?_, validators⟩, id⟩
    simp only [sent, List.drop_left] at listed
    rcases List.mem_append.mp listed with old | fresh
    · exact posted m old
    · exact (reflects m fresh).of_state state
  | deliver order i =>
    simp only [Server.step] at taken
    split at taken
    · cases taken
    · rename_i m there
      have reflects := posted m (List.mem_of_getElem? there)
      obtain ⟨tls', alpha, left, heard⟩ := receive_keeps taken
      have known : s'.validators = s.validators ∨ s'.validators = w.getValidatorSet := by
        rcases heard with same | rfl
        · exact .inl same
        · exact .inr reflects
      refine ⟨⟨tls'.trans tls, alpha ▸ state, fun m' listed => ?_, ?_⟩, fun before => ?_⟩
      · rw [left] at listed
        exact posted m' (List.mem_of_mem_eraseIdx listed)
      · rcases known with same | set
        · exact same ▸ validators
        · exact .inr set
      · rcases known with same | set
        · exact same.trans before
        · exact set
  | request order peer request =>
    obtain ⟨⟨response, _⟩, handled, rfl⟩ := Option.map_eq_some_iff.mp taken
    obtain ⟨_, _, _, rfl⟩ := handle_keeps handled
    exact ⟨⟨tls, state, posted, validators⟩, id⟩
  | node e =>
    simp only [Server.step] at taken
    split at taken
    · obtain ⟨node, _, rfl⟩ := Option.map_eq_some_iff.mp taken
      exact ⟨⟨tls, state, posted, validators⟩, id⟩
    · cases taken

section Sample

local instance : LinearOrder (BitVec 256) := Network.hashOrder

instance : Sortition (BitVec 256) where
  select stake _ _ _ := stake

end Sample

end Server
end Subzero
