import Subzero.Hail.Block
import Subzero.Sleet.Sleet

/-! The committee of hail: the weights of the validators, and whether this node is
to produce the next block. Sortition is a library function that is not modelled:
all that is known of it is its arguments. -/
namespace Subzero

/-- `sortition::select`: the weight drawn for a stake, from the total stake, the
expected size of the committee and a digest. -/
class Sortition (H : Type) where
  select : UInt64 → UInt64 → Nat → H → UInt64

structure Committee (H : Type) where
  selfId : Id
  selfStakingCapacity : UInt64
  validators : HashMap Id (SocketAddr × UInt64)
  committee : HashMap Id (SocketAddr × Weight)
  blockProductionSlot : Option H
  blockProposed : Bool
  blockProducers : Finset H

/-- `util::percent_of` -/
def percentOf (qty total : UInt64) : Weight := (qty.toNat : ℚ) / (total.toNat : ℚ)

/-- The square root of the number of validators, rounded up, plus 100. -/
def expectedSize (n : Nat) : Nat :=
  (if n.sqrt * n.sqrt = n then n.sqrt else n.sqrt + 1) + 100

namespace Committee
variable {H : Type} [LinearOrder H] [BlockDigest H] [Sortition H]

def empty (selfId : Id) : Committee H where
  selfId := selfId
  selfStakingCapacity := 0
  validators := ∅
  committee := ∅
  blockProductionSlot := none
  blockProposed := false
  blockProducers := ∅

omit [LinearOrder H] [BlockDigest H] [Sortition H] in
/-- The validators in the order of the map. -/
def entries (order : Listing Id) (validators : HashMap Id (SocketAddr × UInt64)) :
    List (Id × SocketAddr × UInt64) :=
  (order.list validators.keys).filterMap fun id => (validators.lookup id).map fun e => (id, e)

/-- The sum is a `u64`. -/
def calculateTotalStakingCapacity (order : Listing Id) (c : Committee H) (init : UInt64) :
    UInt64 :=
  (entries order c.validators).foldl (fun total e => total + e.2.2) init

/-- The weights, the producers among the validators and this node, and the slot of
this node. -/
def nextCommittee (order : Listing Id) (c : Committee H) (vrfOutput : H)
    (validators : HashMap Id (SocketAddr × UInt64)) :
    HashMap Id (SocketAddr × Weight) × Finset H × Option H :=
  let size := expectedSize validators.keys.card
  let total := c.calculateTotalStakingCapacity order c.selfStakingCapacity
  let drawn (id : Id) (stake : UInt64) : Option H :=
    let vrf := BlockDigest.ofVrf id vrfOutput
    if 0 < Sortition.select stake total size vrf then some vrf else none
  let (committee, producers) := (entries order validators).foldl
    (fun (acc : HashMap Id (SocketAddr × Weight) × Finset H) e =>
      (acc.1.insert e.1 (e.2.1, percentOf e.2.2 total),
        match drawn e.1 e.2.2 with
        | some vrf => insert vrf acc.2
        | none => acc.2)) (∅, ∅)
  match drawn c.selfId c.selfStakingCapacity with
  | some vrf => (committee, insert vrf producers, some vrf)
  | none => (committee, producers, none)

def next (order : Listing Id) (c : Committee H) (selfStakingCapacity : UInt64) (vrfOutput : H)
    (validators : HashMap Id (SocketAddr × UInt64)) : Committee H :=
  let c := { c with selfStakingCapacity := selfStakingCapacity, validators := validators }
  let (committee, producers, slot) := c.nextCommittee order vrfOutput validators
  { c with
    committee := committee
    blockProducers := producers
    blockProductionSlot := slot
    blockProposed := false }

omit [BlockDigest H] [Sortition H] in
def isValidVrf (c : Committee H) (vrfOutput : H) : Bool := decide (vrfOutput ∈ c.blockProducers)

end Committee
end Subzero
