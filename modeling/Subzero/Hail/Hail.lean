import Subzero.Hail.Committee
import Subzero.Hail.ConflictMap

/-! The state of the hail actor and the functions its handlers call. Arithmetic on
`u64` and `u8` wraps, as in a release build. A function returns `none`, or the
outcome `panic`, where the source panics. -/
namespace Subzero

structure Hail (H : Type) where
  lastAcceptedHash : Option H
  height : BlockHeight
  nodeId : Id
  committee : Committee H
  knownBlocks : HashMap H (HailBlock H)
  queriedBlocks : HashMap H (HailBlock H)
  conflictMap : ConflictMap H
  liveBlocks : HashMap H (Block H)
  acceptedVertices : Finset (Vertex H)
  dag : DAG (Vertex H)

/-- `protocol::Response`; the variants that hail never expects are one. -/
inductive BlockResponse (H : Type) where
  | queryBlockAck (id : Id) (blockHash : H) (outcome : Bool)
  | other

/-- `hail::LiveCommittee`, with the fields that its handler uses. -/
structure LiveCommittee (H : Type) where
  lastAcceptedHash : H
  lastAcceptedBlock : HailBlock H
  height : BlockHeight
  selfStakingCapacity : UInt64
  validators : HashMap Id (SocketAddr × UInt64)
  vrfOut : H

namespace Hail
variable {H : Type} [LinearOrder H] [BlockDigest H] [Sortition H]

/-- Snow* parameter alpha: required majority in the sample. -/
def ALPHA : Weight := 1 / 2

def new (nodeId : Id) : Hail H where
  lastAcceptedHash := none
  height := 0
  nodeId := nodeId
  committee := .empty nodeId
  knownBlocks := ∅
  queriedBlocks := ∅
  conflictMap := ∅
  liveBlocks := ∅
  acceptedVertices := ∅
  dag := .new

/-- The conflict map is written before the DAG, and stays written if the DAG
refuses the vertex. A parent is not looked up before. -/
def insert (order : HailOrder H) (s : Hail H) (block : HailBlock H) :
    Outcome (HailError H) (Hail H) Unit :=
  let vertex := block.vertex
  if vertex ∈ s.dag.g then .ok () s
  else
    let put (edges : List (Vertex H)) : Outcome (HailError H) (Hail H) Unit :=
      let s := { s with conflictMap := s.conflictMap.insertBlock order.hashes block.block }
      (s.dag.insertVx vertex edges).lift .graph fun d => { s with dag := d }
    match block.parent with
    | some parent => put [parent]
    | none => if vertex.height = 0 then put [] else .err (.invalidBlock block.block) s

/-- Returns whether the block is new. -/
def onReceiveBlock (order : HailOrder H) (s : Hail H) (block : HailBlock H) :
    Outcome (HailError H) (Hail H) Bool :=
  if block.hash ∈ s.knownBlocks then .ok false s
  else
    (s.insert order block).bind fun _ s =>
      .ok true { s with knownBlocks := s.knownBlocks.insert block.hash block }

def allPreferred (m : ConflictMap H) : List (Vertex H) → Except (HailError H) Bool
  | [] => .ok true
  | vx :: rest =>
    match m.isPreferred vx.height vx.blockHash with
    | .error e => .error e
    | .ok false => .ok false
    | .ok true => allPreferred m rest

def isStronglyPreferred (s : Hail H) (vx : Vertex H) : Except (HailError H) Bool :=
  allPreferred s.conflictMap (s.dag.dfs vx)

/-- The strongly preferred vertices of the list at height `h - 1`. -/
def candidates (s : Hail H) (h : BlockHeight) : List (Vertex H) →
    Except (HailError H) (List (Vertex H))
  | [] => .ok []
  | vx :: rest =>
    match s.isStronglyPreferred vx with
    | .error e => .error e
    | .ok preferred =>
      (candidates s h rest).map fun vxs =>
        if preferred ∧ vx.height = h - 1 then vx :: vxs else vxs

/-- The candidate with the lowest hash. Without a candidate the source indexes an
empty vector. -/
def selectParent (order : HailOrder H) (s : Hail H) (h : BlockHeight) :
    Option (Except (HailError H) (Vertex H)) :=
  if s.dag.g.keys = ∅ then some (.error .emptyDAG)
  else
    match s.candidates h ((s.dag.leaves order.vertices).flatMap s.dag.dfs) with
    | .error e => some (.error e)
    -- an index out of bounds
    | .ok [] => none
    | .ok (first :: vxs) =>
      some (.ok (vxs.foldl (fun v vi => if vi.blockHash < v.blockHash then vi else v) first))

/-- One round of the ancestral update: conviction of the block against conviction
of the preferred block of its height. -/
def updatePreference (vx : Vertex H) (s : Hail H) : Outcome (HailError H) (Hail H) Unit :=
  match s.conflictMap.getPreferred vx.height with
  | .error e => .err e s
  | .ok pref =>
    match s.dag.conviction vx with
    | none => .panic
    | some (.error e) => .err (.graph e) s
    | some (.ok d1) =>
      match s.dag.conviction ⟨vx.height, pref⟩ with
      | none => .panic
      | some (.error e) => .err (.graph e) s
      | some (.ok d2) =>
        match s.conflictMap.updateConflictSet vx.height vx.blockHash d1 d2 with
        | .error e => .err e s
        | .ok m => .ok () { s with conflictMap := m }

def updateAncestralPreference (s : Hail H) (root : Vertex H) :
    Outcome (HailError H) (Hail H) Unit :=
  Outcome.forEach updatePreference (s.dag.dfs root) s

/-- Whether the block is final. -/
def isAcceptedBlock (s : Hail H) (vx : Vertex H) : Except (HailError H) Bool :=
  match s.conflictMap.isSingleton vx.height, s.conflictMap.getConfidence vx with
  | .error e, _ => .error e
  | .ok _, .error e => .error e
  | .ok singleton, .ok confidence =>
    .ok (if singleton ∧ BETA1 ≤ confidence then true else BETA2 ≤ confidence)

def allAccepted (s : Hail H) : List (Vertex H) → Except (HailError H) Bool
  | [] => .ok true
  | vx :: rest =>
    match s.isAcceptedBlock vx with
    | .error e => .error e
    | .ok false => .ok false
    | .ok true => allAccepted s rest

/-- Whether the block and its direct parents are final. -/
def isAccepted (s : Hail H) (vx : Vertex H) : Except (HailError H) Bool :=
  match s.dag.g.lookup vx with
  | none => .error (.invalidBlockHash vx.blockHash)
  | some parents =>
    match s.allAccepted parents with
    | .error e => .error e
    | .ok false => .ok false
    | .ok true => s.isAcceptedBlock vx

/-- The first vertex of the list that is final and was not before. -/
def firstAccepted (s : Hail H) : List (Vertex H) → Except (HailError H) (Option (Vertex H))
  | [] => .ok none
  | vx :: rest =>
    if vx ∈ s.acceptedVertices then firstAccepted s rest
    else
      match s.isAccepted vx with
      | .error e => .error e
      | .ok true => .ok (some vx)
      | .ok false => firstAccepted s rest

def nextAcceptedVertex (s : Hail H) (vertex : Vertex H) :
    Except (HailError H) (Option (Vertex H) × Hail H) :=
  (s.firstAccepted (s.dag.dfs vertex)).map fun
    | some vx => (some vx, { s with acceptedVertices := Insert.insert vx s.acceptedVertices })
    | none => (none, s)

def sample (order : HailOrder H) (s : Hail H) (minimumWeight : Weight) :
    Except (HailError H) (List (Id × SocketAddr)) :=
  let validators := (order.ids.list s.committee.committee.keys).filterMap fun id =>
    (s.committee.committee.lookup id).map fun (ip, w) => (id, ip, w)
  match sampleWeighted minimumWeight validators 0 [] with
  | some sampled => .ok sampled
  | none => .error .insufficientWeight

/-- `Handler<LiveCommittee>`. The block is inserted without being stored as known. -/
def liveCommittee (order : HailOrder H) (s : Hail H) (msg : LiveCommittee H) : Option (Hail H) :=
  let s := { s with
    committee := s.committee.next order.ids msg.selfStakingCapacity msg.vrfOut msg.validators
    lastAcceptedHash := some msg.lastAcceptedHash
    height := msg.height }
  (s.insert order msg.lastAcceptedBlock).unwrap.map Prod.snd

/-- The weights and outcomes of the acks that come from the committee. Ids are
not checked for duplicates, and other responses are skipped. -/
def outcomes (committee : HashMap Id (SocketAddr × Weight)) (acks : List (BlockResponse H)) :
    List (Id × Weight × Bool) :=
  acks.filterMap fun
    | .queryBlockAck id _ outcome => (committee.lookup id).map fun (_, w) => (id, w, outcome)
    | .other => none

/-- Whether the query gets its votes. -/
def passes (s : Hail H) (acks : List (BlockResponse H)) : Bool :=
  ALPHA ≤ sumOutcomes (outcomes s.committee.committee acks)

/-- The block becomes the tip, whatever its height, and the committee advances. -/
def advance (order : HailOrder H) (s : Hail H) (block : HailBlock H) : Hail H :=
  { s with
    liveBlocks := s.liveBlocks.insert block.hash block.block
    committee := s.committee.next order.ids s.committee.selfStakingCapacity block.block.vrfOut
      s.committee.validators
    lastAcceptedHash := some block.hash
    height := block.vertex.height }

/-- A query that did get the votes; returns the vertex that became final, if any. -/
def passQuery (order : HailOrder H) (s : Hail H) (block : HailBlock H) :
    Option (Option (Vertex H) × Hail H) :=
  match (s.dag.setChit block.vertex 1).unwrap with
  | none => none
  | some (_, d) =>
    match ({ s with dag := d }.updateAncestralPreference block.vertex).unwrap with
    | none => none
    | some (_, s) => ((s.advance order block).nextAcceptedVertex block.vertex).toOption

def markQueried (s : Hail H) (block : HailBlock H) : Hail H :=
  { s with queriedBlocks := s.queriedBlocks.insert block.hash block }

/-- `Handler<QueryComplete>` -/
def queryComplete (order : HailOrder H) (s : Hail H) (block : HailBlock H)
    (acks : List (BlockResponse H)) : Option (Option (Vertex H) × Hail H) :=
  if s.passes acks then
    (s.passQuery order block).map fun (accepted, s) => (accepted, s.markQueried block)
  else some (none, s.markQueried block)

/-- `Handler<QueryBlock>`: whether the block is new, and the vote. A block that
could not be inserted is voted on all the same. -/
def queryBlock (order : HailOrder H) (s : Hail H) (block : HailBlock H) :
    Option (Bool × Bool × Hail H) :=
  let answer (new : Bool) (s : Hail H) : Bool × Bool × Hail H :=
    match s.isStronglyPreferred block.vertex with
    | .ok outcome => (new, outcome, s)
    | .error _ => (new, false, s)
  match s.onReceiveBlock order block with
  | .ok new s => some (answer new s)
  -- the error is only logged
  | .err _ s => some (answer false s)
  | .panic => none

/-- `Handler<GenerateBlock>`: the block with its parent, and whether it was new. -/
def generateBlock (order : HailOrder H) (s : Hail H) (block : Block H) :
    Option (Bool × HailBlock H × Hail H) :=
  match s.selectParent order block.height with
  | none => none
  | some (.error _) => none
  | some (.ok parent) =>
    let hailBlock := ⟨some parent, block⟩
    match s.onReceiveBlock order hailBlock with
    | .ok new s => some (new, hailBlock, s)
    | .err _ s => some (false, hailBlock, s)
    | .panic => none

/-- `Handler<AcceptedCells>`: the block that is to be generated, if any. -/
def acceptedCells (s : Hail H) (cells : List (Cell H)) : Option (Option (Block H) × Hail H) :=
  match s.committee.blockProductionSlot with
  | none => some (none, s)
  | some vrfOut =>
    if s.committee.blockProposed then some (none, s)
    else
      match s.lastAcceptedHash with
      | none => none
      | some hash => some (some (.new hash (s.height + 1) vrfOut cells),
          { s with committee := { s.committee with blockProposed := true } })

/-- `Handler<GetBlock>` -/
def getBlock (s : Hail H) (hash : H) : Option (Block H) := s.liveBlocks.lookup hash

end Hail
end Subzero
