import Subzero.Hail.Hail
import Subzero.Lib.Run

/-! The hail actor: its state, the messages it has posted to itself, and the queries
that wait for the network. A step handles one message or one reply. Messages are
taken in any order and replies are arbitrary. -/
namespace Subzero

/-- The messages that the actor posts to itself. -/
inductive HailMessage (H : Type) where
  | queryIncomplete (block : HailBlock H) (acks : List (BlockResponse H))
  | queryComplete (block : HailBlock H) (acks : List (BlockResponse H))
  | accepted (vertex : Vertex H)
  | freshBlock (block : HailBlock H)
  | generateBlock (block : Block H)

/-- A fanout of `QueryBlock` to sampled validators. -/
structure BlockQuery (H : Type) where
  peers : List (Id × SocketAddr)
  block : HailBlock H

/-- `ClientResponse` -/
inductive BlockReply (H : Type) where
  | fanout (acks : List (BlockResponse H))
  | oneshot

/-- An answered query, with the state in which the answer was decided. -/
structure BlockVote (H : Type) where
  block : HailBlock H
  outcome : Bool
  hail : Hail H

/-- Records are kept of the blocks for which `AcceptedCells` issued `GenerateBlock`,
of the heights and hashes that were made the tip, and of the answers to queries. No
handler reads these records. -/
structure HailActor (H : Type) where
  hail : Hail H
  mailbox : List (HailMessage H)
  requests : List (BlockQuery H)
  proposed : List (Block H)
  tips : List (Vertex H)
  votes : List (BlockVote H)

inductive HailEvent (H : Type) where
  | liveCommittee (msg : LiveCommittee H)
  | queryBlock (block : HailBlock H)
  | generateBlock (block : Block H)
  | acceptedCells (cells : List (Cell H))
  | deliver (i : Nat)
  | reply (i : Nat) (response : Option (BlockReply H))

namespace HailActor
variable {H : Type} [LinearOrder H] [BlockDigest H] [Sortition H]

def started (nodeId : Id) : HailActor H := ⟨.new nodeId, [], [], [], [], []⟩

def notify (w : HailActor H) (ms : List (HailMessage H)) : HailActor H :=
  { w with mailbox := w.mailbox ++ ms }

def vote (w : HailActor H) (block : HailBlock H) (outcome : Bool) : HailActor H :=
  { w with votes := w.votes ++ [⟨block, outcome, w.hail⟩] }

def onLiveCommittee (order : HailOrder H) (w : HailActor H) (msg : LiveCommittee H) :
    Option (HailActor H) :=
  (w.hail.liveCommittee order msg).map fun s =>
    { w with hail := s, tips := w.tips ++ [⟨msg.height, msg.lastAcceptedHash⟩] }

def onQueryBlock (order : HailOrder H) (w : HailActor H) (block : HailBlock H) :
    Option (HailActor H) :=
  (w.hail.queryBlock order block).map fun (new, outcome, s) =>
    ({ w with hail := s }.notify (if new then [.freshBlock block] else [])).vote block outcome

def onGenerateBlock (order : HailOrder H) (w : HailActor H) (block : Block H) :
    Option (HailActor H) :=
  (w.hail.generateBlock order block).map fun (new, hailBlock, s) =>
    { w with hail := s }.notify (if new then [.freshBlock hailBlock] else [])

def onAcceptedCells (w : HailActor H) (cells : List (Cell H)) : Option (HailActor H) :=
  (w.hail.acceptedCells cells).map fun (block, s) =>
    { w with hail := s, proposed := w.proposed ++ block.toList }.notify
      (block.toList.map .generateBlock)

def onFreshBlock (order : HailOrder H) (w : HailActor H) (block : HailBlock H) :
    Option (HailActor H) :=
  match w.hail.sample order Hail.ALPHA with
  | .error _ => none
  | .ok validators => some { w with requests := w.requests ++ [⟨validators, block⟩] }

def onQueryComplete (order : HailOrder H) (w : HailActor H) (block : HailBlock H)
    (acks : List (BlockResponse H)) : Option (HailActor H) :=
  (w.hail.queryComplete order block acks).map fun (accepted, s) =>
    { w with
      hail := s
      tips := if w.hail.passes acks then w.tips ++ [block.vertex] else w.tips }.notify
      (accepted.toList.map .accepted)

def handle (order : HailOrder H) (w : HailActor H) : HailMessage H → Option (HailActor H)
  | .queryIncomplete _ _ => some w
  | .queryComplete block acks => w.onQueryComplete order block acks
  | .accepted _ => some w
  | .freshBlock block => w.onFreshBlock order block
  | .generateBlock block => w.onGenerateBlock order block

/-- Every peer responded if there are as many acks as sampled validators. -/
def onReply (w : HailActor H) (q : BlockQuery H) : Option (BlockReply H) → Option (HailActor H)
  | none => some w
  | some .oneshot => none
  | some (.fanout acks) =>
    if acks.length = q.peers.length then some (w.notify [.queryComplete q.block acks])
    else some (w.notify [.queryIncomplete q.block acks])

/-- One step; `none` if the event cannot happen or its handler panics. -/
def step (w : HailActor H) : HailOrder H × HailEvent H → Option (HailActor H)
  | (order, .liveCommittee msg) => w.onLiveCommittee order msg
  | (order, .queryBlock block) => w.onQueryBlock order block
  | (order, .generateBlock block) => w.onGenerateBlock order block
  | (_, .acceptedCells cells) => w.onAcceptedCells cells
  | (order, .deliver i) =>
    match w.mailbox[i]? with
    | none => none
    | some m => { w with mailbox := w.mailbox.eraseIdx i }.handle order m
  | (_, .reply i response) =>
    match w.requests[i]? with
    | none => none
    | some q => { w with requests := w.requests.eraseIdx i }.onReply q response

end HailActor
end Subzero
