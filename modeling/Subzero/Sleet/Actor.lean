import Subzero.Sleet.Handlers

/-! The actor: its state, the messages it has posted to itself, and the requests
and tasks that wait for the network. A step handles one message or one reply.
Messages are taken in any order and replies are arbitrary. -/
namespace Subzero

inductive Request (H : Type) where
  | getAcceptedFrontier
  | queryTx (id : Id) (ip : SocketAddr) (tx : Tx H)
  | getTxAncestors (txHash : H)

inductive ClientRequest (H : Type) where
  | fanout (peers : List (Id × SocketAddr)) (request : Request H)
  | oneshot (id : Id) (ip : SocketAddr) (request : Request H)

inductive ClientResponse (H : Type) where
  | fanout (responses : List (Response H))
  | oneshot (response : Option (Response H))

/-- The messages that the actor posts to itself. -/
inductive Message (H : Type) where
  | bootstrap
  | fetchWithAncestry (txs : Finset H)
  | queryIncomplete (tx : Tx H) (acks : List (Response H))
  | queryComplete (tx : Tx H) (acks : List (Response H))
  | newAccepted (txHashes : List H)
  | freshTx (tx : Tx H)
  | checkPending
  | askForAncestors (txHash : H) (id : Id) (ip : SocketAddr)

/-- The task that `FetchWithAncestry` starts: it has the database but not the
actor. While a hash is asked for, the peers that were not asked yet are kept. -/
structure Fetch (H : Type) where
  peers : List (Id × SocketAddr)
  queue : List H
  asking : Option (H × List (Id × SocketAddr))

/-- `requests` wait for their replies. What leaves the actor is recorded: the
cells sent to hail, the answers to queries, the hashes in `NewAccepted` messages
and the live cell ids received. No handler reads these records. -/
structure Actor (H : Type) where
  sleet : Sleet H
  mailbox : List (Message H)
  requests : List (ClientRequest H)
  fetches : List (Fetch H)
  hail : List (List (Cell H))
  votes : List (Vote H)
  accepted : List H
  live : Finset (CellId H)

inductive Event (H : Type) where
  | liveCommittee (validators : HashMap Id (SocketAddr × Weight)) (liveCells : HashMap H (Cell H))
  | generateTx (cell : Cell H)
  | queryTx (id : Id) (ip : SocketAddr) (tx : Tx H)
  | deliver (i : Nat)
  | reply (i : Nat) (response : Option (ClientResponse H))
  | timeout (i : Nat)
  | fetch (i : Nat) (response : Option (ClientResponse H))

namespace Actor
variable {H : Type} [DecidableEq H] [Blake3 H]

/-- A started actor has one message. -/
def started (s : Sleet H) : Actor H := ⟨s, [.bootstrap], [], [], [], [], [], ∅⟩

def notify (w : Actor H) (ms : List (Message H)) : Actor H := { w with mailbox := w.mailbox ++ ms }

def send (w : Actor H) (r : ClientRequest H) : Actor H := { w with requests := w.requests ++ [r] }

def vote (w : Actor H) (txHash : H) (outcome : Bool) : Actor H :=
  { w with votes := w.votes ++ [⟨txHash, outcome, w.sleet⟩] }

def onLiveCommittee (order : HashOrder H) (w : Actor H)
    (validators : HashMap Id (SocketAddr × Weight)) (liveCells : HashMap H (Cell H)) :
    Option (Actor H) :=
  (w.sleet.liveCommittee order validators liveCells).map fun s =>
    { w with sleet := s, live := w.live ∪ Sleet.liveIds liveCells }

/-- Returns the hash in the ack. -/
def onGenerateTx (order : HashOrder H) (w : Actor H) (cell : Cell H) :
    Option (Option H × Actor H) :=
  (w.sleet.generateTx order cell).map fun (new, tx, s) =>
    if new then (some cell.hash, { w with sleet := s }.notify [.freshTx tx])
    else (none, { w with sleet := s })

def onQueryTx (order : HashOrder H) (w : Actor H) (id : Id) (ip : SocketAddr) (tx : Tx H) :
    Option (Actor H) :=
  (w.sleet.queryTx order tx).map fun (new, reply, s) =>
    let w := { w with sleet := s }
    let w := if new then w.notify [.freshTx tx, .checkPending] else w
    match reply with
    | .now outcome => w.vote tx.hash outcome
    | .pending => w.notify [.askForAncestors tx.hash id ip]

def onFreshTx (order : HashOrder H) (w : Actor H) (tx : Tx H) : Option (Actor H) :=
  match w.sleet.sample order ALPHA with
  | .error _ => none
  | .ok validators =>
    some (w.send (.fanout validators (.queryTx w.sleet.nodeId w.sleet.nodeIp tx)))

def onQueryComplete (w : Actor H) (tx : Tx H) (acks : List (Response H)) : Option (Actor H) :=
  (w.sleet.queryComplete tx acks).map fun (new, s) =>
    let w := { w with sleet := s, accepted := w.accepted ++ new }
    if new = [] then w else w.notify [.newAccepted new]

def onNewAccepted (order : HashOrder H) (w : Actor H) (hashes : List H) : Option (Actor H) :=
  (w.sleet.newAccepted order hashes).map fun (cells, s) =>
    { w with sleet := s, hail := w.hail ++ [cells] }

def onCheckPending (order : HashOrder H) (w : Actor H) : Option (Actor H) :=
  (w.sleet.checkPending order).map fun c =>
    { w with sleet := c.sleet, votes := w.votes ++ c.votes }.notify (c.fresh.map .freshTx)

def handle (order : HashOrder H) (w : Actor H) : Message H → Option (Actor H)
  | .bootstrap => some (w.send (.fanout w.sleet.bootstrapPeers .getAcceptedFrontier))
  | .fetchWithAncestry txs =>
    let task := ⟨w.sleet.bootstrapPeers, order.hashes.list txs, none⟩
    some { w with fetches := w.fetches ++ [task] }
  | .queryIncomplete tx _ => (w.sleet.queryIncomplete tx).map fun s => { w with sleet := s }
  | .queryComplete tx acks => w.onQueryComplete tx acks
  | .newAccepted hashes => w.onNewAccepted order hashes
  | .freshTx tx => w.onFreshTx order tx
  | .checkPending => w.onCheckPending order
  | .askForAncestors txHash id ip => some (w.send (.oneshot id ip (.getTxAncestors txHash)))

def onBootstrapReply (order : HashOrder H) (w : Actor H) :
    Option (ClientResponse H) → Option (Actor H)
  | none => some w
  | some (.oneshot _) => none
  | some (.fanout frontiers) =>
    (w.sleet.bootstrap order frontiers).map fun (diff, s) =>
      let w := { w with sleet := s }
      match diff with
      | some diff => w.notify [.fetchWithAncestry diff]
      | none => w

/-- Every peer responded if there are as many acks as sampled validators. -/
def onQueryReply (w : Actor H) (validators : List (Id × SocketAddr)) (tx : Tx H) :
    Option (ClientResponse H) → Option (Actor H)
  | none => some w
  | some (.oneshot _) => none
  | some (.fanout acks) =>
    if acks.length = validators.length then some (w.notify [.queryComplete tx acks])
    else some (w.notify [.queryIncomplete tx acks])

def onAncestorsReply (order : HashOrder H) (w : Actor H) :
    Option (ClientResponse H) → Option (Actor H)
  | some (.oneshot (some (.txAncestors ancestors))) =>
    (Sleet.receiveAncestors order ancestors w.sleet).map fun (fresh, s) =>
      { w with sleet := s }.notify (fresh.map Message.freshTx ++ [Message.checkPending])
  | _ => some w

def onReply (order : HashOrder H) (w : Actor H) (response : Option (ClientResponse H)) :
    ClientRequest H → Option (Actor H)
  | .fanout _ .getAcceptedFrontier => w.onBootstrapReply order response
  | .fanout validators (.queryTx _ _ tx) => w.onQueryReply validators tx response
  | .oneshot _ _ (.getTxAncestors _) => w.onAncestorsReply order response
  | _ => none

/-- The receiving end of a pending query times out and answers no. -/
def onTimeout (w : Actor H) (i : Nat) : Option (Actor H) :=
  match w.sleet.pendingQueries[i]? with
  | none => none
  | some p =>
    if p.closed then none
    else
      let pending := w.sleet.pendingQueries.set i { p with closed := true }
      some ({ w with sleet := { w.sleet with pendingQueries := pending } }.vote p.tx.hash false)

/-- One round of a fetch task. A fetched transaction goes to the database as it
was received, and its parents are fetched next. -/
def fetchRound (db : TxDb H) (f : Fetch H) (response : Option (ClientResponse H)) :
    Option (TxDb H × Fetch H) :=
  match f.asking with
  | none =>
    match f.queue with
    | [] => none
    | hash :: queue =>
      if db.isKnownTx hash then some (db, { f with queue := queue })
      else some (db, { f with queue := queue, asking := some (hash, f.peers) })
  | some (_, []) => some (db, { f with asking := none })
  | some (hash, _ :: peers) =>
    match response with
    | some (.oneshot (some (.fetchedTx (some tx)))) =>
      some (db.insertTx tx, { f with queue := f.queue ++ tx.parents, asking := none })
    | _ => some (db, { f with asking := some (hash, peers) })

/-- A task that has nothing left to fetch repeats the bootstrap. -/
def onFetch (w : Actor H) (i : Nat) (response : Option (ClientResponse H)) : Option (Actor H) :=
  match w.fetches[i]? with
  | none => none
  | some f =>
    match fetchRound w.sleet.knownTxs f response with
    | none => some ({ w with fetches := w.fetches.eraseIdx i }.notify [.bootstrap])
    | some (db, f) =>
      some { w with sleet := { w.sleet with knownTxs := db }, fetches := w.fetches.set i f }

/-- One step; `none` if the event cannot happen or its handler panics. -/
def step (w : Actor H) : HashOrder H × Event H → Option (Actor H)
  | (order, .liveCommittee validators liveCells) => w.onLiveCommittee order validators liveCells
  | (order, .generateTx cell) => (w.onGenerateTx order cell).map Prod.snd
  | (order, .queryTx id ip tx) => w.onQueryTx order id ip tx
  | (order, .deliver i) =>
    match w.mailbox[i]? with
    | none => none
    | some m => { w with mailbox := w.mailbox.eraseIdx i }.handle order m
  | (order, .reply i response) =>
    match w.requests[i]? with
    | none => none
    | some r => { w with requests := w.requests.eraseIdx i }.onReply order response r
  | (_, .timeout i) => w.onTimeout i
  | (_, .fetch i response) => w.onFetch i response

end Actor
end Subzero
