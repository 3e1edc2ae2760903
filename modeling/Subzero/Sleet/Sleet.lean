import Mathlib.Data.Rat.Defs
import Mathlib.Algebra.Order.Ring.Rat
import Subzero.Graph.ConflictGraph
import Subzero.Sleet.Tx
import Subzero.Sleet.Bounded

/-! The state of the sleet actor and the functions its handlers call. Weights are
exact rationals in place of `f64`. A function returns `none`, or the outcome
`panic`, where the source panics. -/
namespace Subzero

abbrev Weight := ℚ

/-- Max number of parents of a generated transaction. -/
def NPARENTS : Nat := 3
/-- Min required combined weight of sampled validators. -/
def ALPHA : Weight := 1 / 2

inductive SleetError (H : Type) where
  | graph (error : GraphError H)
  | storage (error : StorageError)
  | invalidCoinbaseTransaction (cell : Cell H)
  | insufficientWeight
  | missingAncestry
  deriving DecidableEq

/-- The sending end of a pending query; closed when the query timed out. -/
structure Pending (H : Type) where
  tx : Tx H
  closed : Bool

structure Sleet (H : Type) where
  nodeId : Id
  nodeIp : SocketAddr
  committee : HashMap Id (SocketAddr × Weight)
  knownTxs : TxDb H
  conflictGraph : ConflictGraph H
  liveCells : BoundedHashMap H (Cell H)
  acceptedTxs : BoundedHashSet H
  pendingQueries : List (Pending H)
  dag : DAG H
  acceptedFrontier : Finset H
  bootstrapPeers : List (Id × SocketAddr)
  oldFrontier : Finset H
  bootstrapped : Bool

/-- `util::sample_weighted` on validators that are already shuffled. -/
def sampleWeighted (minW : Weight) : List (Id × SocketAddr × Weight) → Weight →
    List (Id × SocketAddr) → Option (List (Id × SocketAddr))
  | [], w, sample => if w < minW then none else some sample
  | (id, ip, wv) :: rest, w, sample =>
    if w ≥ minW then some sample
    else sampleWeighted minW rest (w + wv) (sample ++ [(id, ip)])

/-- `util::sum_outcomes` -/
def sumOutcomes (outcomes : List (Id × Weight × Bool)) : Weight :=
  outcomes.foldl (fun acc o => if o.2.2 then acc + o.2.1 else acc) 0

namespace Sleet
variable {H : Type} [DecidableEq H] [Blake3 H]

def new (order : HashOrder H) (nodeId : Id) (nodeIp : SocketAddr)
    (bootstrapPeers : List (Id × SocketAddr)) : Sleet H where
  nodeId := nodeId
  nodeIp := nodeIp
  committee := ∅
  knownTxs := ∅
  conflictGraph := .new order ∅
  liveCells := .new 3000
  acceptedTxs := .new 3000
  pendingQueries := []
  dag := .new
  acceptedFrontier := ∅
  bootstrapPeers := bootstrapPeers
  oldFrontier := ∅
  bootstrapped := false

/-- The status check of a transaction, where an unknown one counts as no. -/
def accepted (s : Sleet H) (hash : H) : Bool := unwrapOrFalse (s.knownTxs.isAcceptedTx hash)

def hasParents (s : Sleet H) (tx : Tx H) : Bool :=
  match s.dag.hasVertices tx.parents with
  | .ok () => true
  | .error missing => missing.all s.accepted

def removeAcceptedParents (s : Sleet H) (parents : List H) : List H :=
  parents.filter fun p => !s.accepted p

/-- Insert a transaction into the conflict graph and the DAG. An error of the
second leaves the first done. -/
def insert (order : HashOrder H) (s : Sleet H) (tx : Tx H) :
    Outcome (SleetError H) (Sleet H) Unit :=
  ((s.conflictGraph.insertCell order tx.cell).lift .graph
    fun cg => { s with conflictGraph := cg }).bind fun _ s =>
  (s.dag.insertVx tx.hash (s.removeAcceptedParents tx.parents)).lift .graph
    fun d => { s with dag := d }

/-- Returns whether the transaction is new. The `unwrap` on `is_removed_tx` is
reached for stored transactions only. -/
def onReceiveTx (order : HashOrder H) (s : Sleet H) (tx : Tx H) :
    Outcome (SleetError H) (Sleet H) Bool :=
  if hasCoinbaseOutput tx.cell then .err (.invalidCoinbaseTransaction tx.cell) s
  else if !s.knownTxs.isKnownTx tx.hash || unwrapOrFalse (s.knownTxs.isRemovedTx tx.hash) then
    if !s.hasParents tx then .err .missingAncestry s
    else
      let tx := { tx with status := .pending }
      (s.insert order tx).bind fun _ s =>
        .ok true { s with knownTxs := s.knownTxs.insertTx tx }
  else .ok false s

def allPreferred (cg : ConflictGraph H) : List H → Except (GraphError H) Bool
  | [] => .ok true
  | hash :: rest =>
    match cg.isPreferred hash with
    | .error e => .error e
    | .ok false => .ok false
    | .ok true => allPreferred cg rest

def isStronglyPreferred (s : Sleet H) (hash : H) : Except (GraphError H) Bool :=
  allPreferred s.conflictGraph (s.dag.dfs hash)

/-- First loop of the parent selection: the strongly preferred leaves. -/
def selectLeaves (s : Sleet H) (p : Nat) : List H → List H → List H →
    Except (GraphError H) (List H × List H)
  | [], parents, accessible => .ok (parents, accessible)
  | leaf :: rest, parents, accessible =>
    if p ≤ parents.length then .ok (parents, accessible)
    else
      match s.isStronglyPreferred leaf with
      | .error e => .error e
      | .ok true => selectLeaves s p rest (parents ++ [leaf]) (accessible ++ s.dag.dfs leaf)
      | .ok false => selectLeaves s p rest parents accessible

/-- Inner loop over the ancestry of a leaf; the flag breaks the outer one. -/
def selectAncestor (s : Sleet H) (p : Nat) : List H → List H → List H →
    Except (GraphError H) (Bool × List H × List H)
  | [], parents, accessible => .ok (false, parents, accessible)
  | elt :: rest, parents, accessible =>
    if p ≤ parents.length then .ok (true, parents, accessible)
    else
      match s.isStronglyPreferred elt with
      | .error e => .error e
      | .ok preferred =>
        if preferred ∧ elt ∉ parents ∧ elt ∉ accessible then
          .ok (false, parents ++ [elt], accessible ++ s.dag.dfs elt)
        else selectAncestor s p rest parents accessible

def selectAncestors (s : Sleet H) (p : Nat) : List H → List H → List H →
    Except (GraphError H) (List H)
  | [], parents, _ => .ok parents
  | leaf :: rest, parents, accessible =>
    match selectAncestor s p (s.dag.dfs leaf) parents accessible with
    | .error e => .error e
    | .ok (true, parents, _) => .ok parents
    | .ok (false, parents, accessible) => selectAncestors s p rest parents accessible

def selectParents (order : HashOrder H) (s : Sleet H) (p : Nat) :
    Except (GraphError H) (List H) :=
  if s.dag.g.keys = ∅ then .ok []
  else
    let leaves := s.dag.leaves order.hashes
    match selectLeaves s p leaves [] [] with
    | .error e => .error e
    | .ok (parents, accessible) => selectAncestors s p leaves parents accessible

/-- One round of the ancestral update: conviction of the transaction against
conviction of the preferred one. -/
def updatePreference (hash : H) (s : Sleet H) : Outcome (SleetError H) (Sleet H) Unit :=
  match s.conflictGraph.getPreferred hash with
  | .error e => .err (.graph e) s
  | .ok pref =>
    match s.dag.conviction hash with
    | none => .panic
    | some (.error e) => .err (.graph e) s
    | some (.ok d1) =>
      match s.dag.conviction pref with
      | none => .panic
      | some (.error e) => .err (.graph e) s
      | some (.ok d2) =>
        (s.conflictGraph.updateConflictSet hash d1 d2).lift .graph
          fun cg => { s with conflictGraph := cg }

def updateAncestralPreference (s : Sleet H) (root : H) : Outcome (SleetError H) (Sleet H) Unit :=
  Outcome.forEach updatePreference (s.dag.dfs root) s

def resetAncestorConfidence (s : Sleet H) (root : H) : Outcome (SleetError H) (Sleet H) Unit :=
  Outcome.forEach (fun hash s => (s.conflictGraph.resetCount hash).lift .graph
    fun cg => { s with conflictGraph := cg }) (s.dag.dfs root) s

/-- Whether a transaction is final; it panics on one without a conflict set. -/
def isAcceptedTx (s : Sleet H) (hash : H) : Option Bool :=
  if s.accepted hash then some true
  else if unwrapOrFalse (s.knownTxs.cannotBeAccepted hash) then some false
  else
    match s.conflictGraph.getConfidence hash, s.conflictGraph.isSingleton hash with
    | .ok confidence, .ok singleton =>
      some (if singleton ∧ BETA1 ≤ confidence then true else BETA2 ≤ confidence)
    | _, _ => none

def allAccepted (s : Sleet H) : List H → Option Bool
  | [] => some true
  | hash :: rest =>
    match s.isAcceptedTx hash with
    | none => none
    | some false => some false
    | some true => allAccepted s rest

/-- Whether the ancestry of a transaction is final. -/
def isAccepted (s : Sleet H) (hash : H) : Option Bool := s.allAccepted (s.dag.dfs hash)

def isAcceptedMemo (s : Sleet H) (hash : H) (memo : HashMap H Bool) :
    Option (Bool × HashMap H Bool) :=
  match memo.lookup hash with
  | some res => some (res, memo)
  | none => (s.isAccepted hash).map fun res => (res, memo.insert hash res)

/-- A rejected transaction leaves the DAG; its children are returned. -/
def reject (order : HashOrder H) (hash : H) (s : Sleet H) :
    Outcome (SleetError H) (Sleet H) (List H) :=
  match s.knownTxs.setStatus hash .rejected with
  | .error e => .err (.storage e) s
  | .ok db =>
    ((s.dag.removeVx hash).lift .graph fun d => { s with knownTxs := db, dag := d }).bind
      fun children s => .ok (order.hashes.list children) s

/-- The work list of the progeny. An error of the conflict graph ends the loop,
an error of the DAG does not. -/
def removeProgeny (order : HashOrder H) : Nat → List H → Sleet H →
    Outcome (SleetError H) (Sleet H) Unit
  | 0, _, _ => .panic
  | _ + 1, [], s => .ok () s
  | n + 1, hash :: queue, s =>
    match s.knownTxs.setStatus hash .removed with
    | .error e => .err (.storage e) s
    | .ok db =>
      ((s.conflictGraph.removeCell order hash).lift .graph
        fun cg => { s with knownTxs := db, conflictGraph := cg }).bind fun _ s =>
      match s.dag.removeVx hash with
      | .ok children d =>
        removeProgeny order n (queue ++ order.hashes.list children) { s with dag := d }
      | .err _ d => removeProgeny order n queue { s with dag := d }
      | .panic => .panic

/-- Every round of the work list that goes on takes a cell out of the conflict
graph, so the number of conflict sets bounds the rounds. -/
def removeConflicts (order : HashOrder H) (s : Sleet H) (tx : Tx H) :
    Outcome (SleetError H) (Sleet H) Unit :=
  ((s.conflictGraph.acceptCell order tx.cell).lift .graph
    fun cg => { s with conflictGraph := cg }).bind fun rejected s =>
  (Outcome.gather (reject order) rejected s).bind fun children s =>
  removeProgeny order (s.conflictGraph.cs.keys.card + 1) children s

/-- The accepted frontier found so far, what lies above it, and the memo. -/
structure Frontier (H : Type) where
  accepted : Finset H
  above : Finset H
  memo : HashMap H Bool

def visitFrontier (s : Sleet H) (f : Frontier H) (hash : H) : Option (Frontier H) :=
  if hash ∈ f.above then some f
  else
    (s.isAcceptedMemo hash f.memo).map fun (res, memo) =>
      if res then ⟨Insert.insert hash f.accepted, f.above ∪ (s.dag.dfs hash).toFinset, memo⟩
      else { f with memo := memo }

def computeAcceptedFrontier (order : HashOrder H) (s : Sleet H) : Option (Sleet H) :=
  (((s.dag.leaves order.hashes).flatMap s.dag.dfs).foldlM s.visitFrontier ⟨∅, ∅, ∅⟩).map
    fun f => { s with acceptedFrontier := f.accepted }

/-- `let _ = self.dag.remove_vx(a)` -/
def dropVx (s : Sleet H) (hash : H) : Sleet H :=
  match s.dag.removeVx hash with
  | .ok _ d => { s with dag := d }
  | .err _ d => { s with dag := d }
  | .panic => s

def pruneAtAcceptedFrontier (order : HashOrder H) (s : Sleet H) : Option (Sleet H) :=
  (s.computeAcceptedFrontier order).map fun s =>
    let toBePruned := s.acceptedFrontier.biUnion fun f => (s.dag.dfs f).toFinset
    ((order.hashes.list toBePruned).filter (· ∉ s.acceptedFrontier)).foldl dropVx s

/-- One round of the acceptance loop over the ancestry. -/
def acceptRound (acc : List H × HashMap H Bool × Sleet H) (hash : H) :
    Option (List H × HashMap H Bool × Sleet H) :=
  let (new, memo, s) := acc
  if s.accepted hash then some acc
  else
    match s.isAcceptedMemo hash memo with
    | none => none
    | some (false, memo) => some (new, memo, s)
    | some (true, memo) =>
      match s.acceptedTxs.insert hash, s.knownTxs.setStatus hash .accepted with
      | some acceptedTxs, .ok db =>
        some (new ++ [hash], memo, { s with acceptedTxs := acceptedTxs, knownTxs := db })
      | _, _ => none

/-- Returns the newly accepted transaction hashes. -/
def computeAcceptedTxs (s : Sleet H) (hash : H) : Option (List H × Sleet H) :=
  ((s.dag.dfs hash).foldlM acceptRound ([], ∅, s)).map fun (new, _, s) => (new, s)

def sample (order : HashOrder H) (s : Sleet H) (minimumWeight : Weight) :
    Except (SleetError H) (List (Id × SocketAddr)) :=
  let validators := (order.ids.list s.committee.keys).filterMap fun id =>
    (s.committee.lookup id).map fun (ip, w) => (id, ip, w)
  match sampleWeighted minimumWeight validators 0 [] with
  | some sampled => .ok sampled
  | none => .error .insufficientWeight

end Sleet
end Subzero
