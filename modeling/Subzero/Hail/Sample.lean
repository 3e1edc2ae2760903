import Subzero.Ideal
import Subzero.Hail.Actor

/-! The ideal hash on blocks, and a node with one other validator. The runs that show
where a property fails are runs of this node. -/
namespace Subzero

/-- Digests are compared as numbers. -/
instance : LinearOrder Digest where
  le a b := a.value ≤ b.value
  le_refl a := Nat.le_refl a.value
  le_trans _ _ _ := Nat.le_trans
  le_antisymm _ _ less more := Digest.value_injective (Nat.le_antisymm less more)
  le_total a b := Nat.le_total a.value b.value
  toDecidableLE a b := inferInstanceAs (Decidable (a.value ≤ b.value))
  toDecidableEq := instDecidableEqDigest

def encodeOption : Option Digest → Nat
  | none => 0
  | some d => d.value + 1

theorem encodeOption_injective : Function.Injective encodeOption := by
  rintro (_ | a) (_ | b) eq
  · rfl
  · simp [encodeOption] at eq
  · simp [encodeOption] at eq
  · rw [Digest.value_injective (Nat.succ_injective eq)]

instance : BlockDigest Digest where
  ofBlock b := ⟨Nat.pair (Nat.pair (encodeOption b.predecessor) b.height.toNat)
    (Nat.pair b.vrfOut.value (encodeList (b.cells.map fun c => c.hash.value)))⟩
  ofVrf id vrf := ⟨Nat.pair id.key vrf.value⟩

/-- Every stake is drawn with its own weight. -/
instance : Sortition Digest where
  select stake _ _ _ := stake

theorem blockHash_injective : Function.Injective (Block.hash : Block Digest → Digest) := by
  rintro ⟨p, h, ⟨v⟩, cells⟩ ⟨p', h', ⟨v'⟩, cells'⟩ eq
  have pair := congrArg Digest.value eq
  simp only [Block.hash, BlockDigest.ofBlock, Nat.pair_eq_pair] at pair
  obtain ⟨⟨hp, hh⟩, rfl, hc⟩ := pair
  have injective : Function.Injective fun c : Cell Digest => c.hash.value :=
    Digest.value_injective.comp hash_injective
  rw [encodeOption_injective hp, UInt64.toNat_inj.mp hh,
    List.map_injective_iff.mpr injective (encodeList_injective hc)]

def Vertex.key (v : Vertex Digest) : Nat := Nat.pair v.height.toNat v.blockHash.value

theorem Vertex.key_injective : Function.Injective Vertex.key := by
  rintro ⟨h, ⟨b⟩⟩ ⟨h', ⟨b'⟩⟩ eq
  simp only [Vertex.key, Nat.pair_eq_pair] at eq
  rw [UInt64.toNat_inj.mp eq.1, eq.2]

def ascendingVertices : HailOrder Digest where
  hashes := ascending Digest.value Digest.value_injective
  vertices := ascending Vertex.key Vertex.key_injective
  ids := ascending Id.key Id.key_injective

namespace HailActor

def sample : HailActor Digest := .started ⟨0⟩

/-- A block without cells; blocks of one height differ in their VRF outputs. -/
def blank (height : BlockHeight) (vrf : Nat) : Block Digest := .new ⟨0⟩ height ⟨vrf⟩ []

def genesis : HailBlock Digest := ⟨none, ⟨none, 0, ⟨0⟩, []⟩⟩

def child (parent : HailBlock Digest) (height : BlockHeight) (vrf : Nat) : HailBlock Digest :=
  ⟨some parent.vertex, blank height vrf⟩

/-- This node and another one have one stake each. -/
def joins (height : BlockHeight) : HailEvent Digest :=
  .liveCommittee ⟨genesis.hash, genesis, height, 1,
    (∅ : HashMap Id (SocketAddr × UInt64)).insert ⟨1⟩ ("peer", 1), ⟨0⟩⟩

def answer (outcome : Bool) (b : HailBlock Digest) : HailEvent Digest :=
  .reply 0 (some (.fanout [.queryBlockAck ⟨1⟩ b.hash outcome]))

/-- Receive a block with `n` messages in the mailbox, and let its query succeed. -/
def poll (n : Nat) (b : HailBlock Digest) : List (HailEvent Digest) :=
  [.queryBlock b, .deliver n, answer true b, .deliver n]

/-- Run the node in ascending iteration order. -/
def runSample (events : List (HailEvent Digest)) :
    Option (List (HailActor Digest × HailOrder Digest × HailEvent Digest) × HailActor Digest) :=
  exec step sample (events.map fun e => (ascendingVertices, e))

end HailActor
end Subzero
