import Subzero.Sleet.Sleet

/-! What the message handlers do to the state, before the messages they send are
taken into account. `none` is a panic, which ends the actor. -/
namespace Subzero

/-- `protocol::Response`; the variants that sleet never expects are one. -/
inductive Response (H : Type) where
  | queryTxAck (id : Id) (txHash : H) (outcome : Bool)
  | txAncestors (ancestors : List (Tx H))
  | acceptedFrontier (frontier : Finset H)
  | fetchedTx (tx : Option (Tx H))
  | other

/-- An answered query, with the state in which the answer was decided. -/
structure Vote (H : Type) where
  txHash : H
  outcome : Bool
  sleet : Sleet H

namespace Sleet
variable {H : Type} [DecidableEq H] [Blake3 H]

/-- The cell ids of a map of live cells. -/
def liveIds (liveCells : HashMap H (Cell H)) : Finset (CellId H) :=
  liveCells.keys.biUnion fun hash =>
    match liveCells.lookup hash with
    | some cell => fromOutputs hash cell.outputs
    | none => ∅

def addLiveCells (liveCells : HashMap H (Cell H)) : List H → BoundedHashMap H (Cell H) →
    Option (BoundedHashMap H (Cell H))
  | [], live => some live
  | hash :: rest, live =>
    match liveCells.lookup hash with
    | none => addLiveCells liveCells rest live
    | some cell =>
      if hash ∈ live.elems then addLiveCells liveCells rest live
      else (live.insert hash cell).bind (addLiveCells liveCells rest)

/-- `Handler<LiveCommittee>` -/
def liveCommittee (order : HashOrder H) (s : Sleet H)
    (validators : HashMap Id (SocketAddr × Weight)) (liveCells : HashMap H (Cell H)) :
    Option (Sleet H) :=
  (addLiveCells liveCells (order.hashes.list liveCells.keys) s.liveCells).map fun live =>
    { s with
      liveCells := live
      conflictGraph := s.conflictGraph.append order (liveIds liveCells)
      committee := validators }

/-- `tx_storage::set_status(..).unwrap()` -/
def markQueried (s : Sleet H) (hash : H) : Option (Sleet H) :=
  match s.knownTxs.setStatus hash .queried with
  | .ok db => some { s with knownTxs := db }
  | .error _ => none

/-- A query that did not get the votes. -/
def failQuery (s : Sleet H) (hash : H) : Option (Sleet H) :=
  (s.resetAncestorConfidence hash).unwrap.map Prod.snd

/-- A query that did get the votes. The hashes that became accepted are returned. -/
def passQuery (s : Sleet H) (tx : Tx H) : Option (List H × Sleet H) :=
  match (s.dag.setChit tx.hash 1).unwrap with
  | none => none
  | some (_, d) =>
    match ({ s with dag := d }.updateAncestralPreference tx.hash).unwrap with
    | none => none
    | some (_, s) =>
      match s.liveCells.insert tx.cell.hash tx.cell with
      | none => none
      | some live => { s with liveCells := live }.computeAcceptedTxs tx.hash

/-- The weights and outcomes of the acks that come from the committee. Ids are
not checked for duplicates. -/
def outcomes (committee : HashMap Id (SocketAddr × Weight)) : List (Response H) →
    Option (List (Id × Weight × Bool))
  | [] => some []
  | .queryTxAck id _ outcome :: rest =>
    (outcomes committee rest).map fun os =>
      match committee.lookup id with
      | some (_, w) => (id, w, outcome) :: os
      | none => os
  | _ :: _ => none

/-- `Handler<QueryComplete>`. The status becomes `Queried` in both branches, also
when the transaction was accepted just before. -/
def queryComplete (s : Sleet H) (tx : Tx H) (acks : List (Response H)) :
    Option (List H × Sleet H) :=
  match outcomes s.committee acks with
  | none => none
  | some os =>
    if ALPHA < sumOutcomes os then
      (s.passQuery tx).bind fun (new, s) => (s.markQueried tx.hash).map fun s => (new, s)
    else
      (s.failQuery tx.hash).bind fun s => (s.markQueried tx.hash).map fun s => ([], s)

/-- `Handler<QueryIncomplete>` -/
def queryIncomplete (s : Sleet H) (tx : Tx H) : Option (Sleet H) :=
  (s.failQuery tx.hash).bind fun s => s.markQueried tx.hash

/-- The loop over newly accepted hashes. An error while conflicts are removed is
logged, and what was removed until then stays removed. -/
def forwardCells (order : HashOrder H) : List H → Sleet H → Option (List (Cell H) × Sleet H)
  | [], s => some ([], s)
  | hash :: rest, s =>
    match s.knownTxs.getTx hash with
    | .error _ => none
    | .ok tx =>
      match (s.removeConflicts order tx).state? with
      | none => none
      | some s => (forwardCells order rest s).map fun (cells, s) => (tx.cell :: cells, s)

/-- `Handler<NewAccepted>`; returns the cells for hail. -/
def newAccepted (order : HashOrder H) (s : Sleet H) (hashes : List H) :
    Option (List (Cell H) × Sleet H) :=
  (forwardCells order hashes s).bind fun (cells, s) =>
    (s.pruneAtAcceptedFrontier order).map fun s => (cells, s)

/-- `Handler<GenerateTx>`: the transaction, and whether it was new. -/
def generateTx (order : HashOrder H) (s : Sleet H) (cell : Cell H) :
    Option (Bool × Tx H × Sleet H) :=
  match s.selectParents order NPARENTS with
  | .error _ => none
  | .ok parents =>
    let tx := Tx.new parents cell
    match s.onReceiveTx order tx with
    | .ok new s => some (new, tx, s)
    | .err _ s => some (false, tx, s)
    | .panic => none

/-- What a query gets: an answer at once, or one from a later check. -/
inductive Reply where
  | now (outcome : Bool)
  | pending
  deriving DecidableEq

/-- The answer to a query of a transaction that could be received. -/
def voteOn (s : Sleet H) (hash : H) : Option Bool :=
  if s.accepted hash then some true
  else if unwrapOrFalse (s.knownTxs.cannotBeAccepted hash) then some false
  else (s.isStronglyPreferred hash).toOption

/-- `Handler<QueryTx>`: whether the transaction was new, and the reply. -/
def queryTx (order : HashOrder H) (s : Sleet H) (tx : Tx H) : Option (Bool × Reply × Sleet H) :=
  match s.onReceiveTx order tx with
  | .ok new s => (s.voteOn tx.hash).map fun outcome => (new, .now outcome, s)
  | .err .missingAncestry s =>
    some (false, .pending, { s with pendingQueries := s.pendingQueries ++ [⟨tx, false⟩] })
  | .err _ s => some (false, .now false, s)
  | .panic => none

/-- The state of the loop over the pending queries. -/
structure Checked (H : Type) where
  sleet : Sleet H
  remaining : List (Pending H)
  fresh : List (Tx H)
  votes : List (Vote H)

/-- A closed receiver gets no answer. -/
def Checked.answer (c : Checked H) (p : Pending H) (outcome : Bool) : Checked H :=
  if p.closed then c else { c with votes := c.votes ++ [⟨p.tx.hash, outcome, c.sleet⟩] }

/-- One round. Unlike the handler of a query, it does not look at the status. -/
def checkRound (order : HashOrder H) (c : Checked H) (p : Pending H) : Option (Checked H) :=
  if c.sleet.hasParents p.tx then
    match c.sleet.onReceiveTx order p.tx with
    | .ok new s =>
      let c := { c with sleet := s, fresh := if new then c.fresh ++ [p.tx] else c.fresh }
      (s.isStronglyPreferred p.tx.hash).toOption.map (c.answer p)
    | .err _ s => some ({ c with sleet := s }.answer p false)
    | .panic => none
  else if p.closed then some c
  else some { c with remaining := c.remaining ++ [p] }

/-- `Handler<CheckPending>`: the queries are popped from the end. -/
def checkPending (order : HashOrder H) (s : Sleet H) : Option (Checked H) :=
  (s.pendingQueries.reverse.foldlM (checkRound order)
    ⟨{ s with pendingQueries := [] }, [], [], []⟩).map fun c =>
      { c with sleet := { c.sleet with pendingQueries := c.remaining.reverse } }

/-- The ancestors of a query are received one by one; those that are new are
returned, and an error is logged. -/
def receiveAncestors (order : HashOrder H) : List (Tx H) → Sleet H →
    Option (List (Tx H) × Sleet H)
  | [], s => some ([], s)
  | tx :: rest, s =>
    match s.onReceiveTx order tx with
    | .ok new s =>
      (receiveAncestors order rest s).map fun (fresh, s) =>
        (if new then tx :: fresh else fresh, s)
    | .err _ s => receiveAncestors order rest s
    | .panic => none

/-- The accepted frontiers of the bootstrap peers, joined. -/
def joinFrontiers : List (Response H) → Finset H → Option (Finset H)
  | [], joined => some joined
  | .acceptedFrontier frontier :: rest, joined => joinFrontiers rest (joined ∪ frontier)
  | _ :: _, _ => none

/-- The reply to `Handler<Bootstrap>`: the frontier that is to be fetched, if any. -/
def bootstrap (order : HashOrder H) (s : Sleet H) (frontiers : List (Response H)) :
    Option (Option (Finset H) × Sleet H) :=
  match joinFrontiers frontiers s.acceptedFrontier with
  | none => none
  | some joined =>
    let diff := joined \ s.oldFrontier
    if diff = ∅ then some (none, { s with acceptedFrontier := joined, bootstrapped := true })
    else
      let s := { s with acceptedFrontier := joined, oldFrontier := joined }
      match Outcome.forEach (fun tx (d : DAG H) =>
          (d.insertVx tx []).bind fun _ d => d.setChit tx 1) (order.hashes.list diff) s.dag with
      | .ok _ d => some (some diff, { s with dag := d })
      | .err _ d => some (none, { s with dag := d })
      | .panic => none

end Sleet
end Subzero
