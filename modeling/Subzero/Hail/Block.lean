import Mathlib.Order.Defs.LinearOrder
import Subzero.Cell
import Subzero.Graph.ConflictGraph

/-! Blocks, and what hail adds to them. A vertex of the graph is a height with a
block hash. The parent of a block is not part of its hash. -/
namespace Subzero

abbrev BlockHeight := UInt64

structure Vertex (H : Type) where
  height : BlockHeight
  blockHash : H
  deriving DecidableEq

structure Block (H : Type) where
  predecessor : Option H
  height : BlockHeight
  vrfOut : H
  cells : List (Cell H)
  deriving DecidableEq

/-- The digests that hail takes: of a block, and of an id followed by a VRF output. -/
class BlockDigest (H : Type) where
  ofBlock : Block H → H
  ofVrf : Id → H → H

/-- A block with a vertex that is to be its predecessor; genesis has none. -/
structure HailBlock (H : Type) where
  parent : Option (Vertex H)
  block : Block H
  deriving DecidableEq

section
variable {H : Type} [BlockDigest H]

def Block.new (predecessor : H) (height : BlockHeight) (vrfOut : H) (cells : List (Cell H)) :
    Block H := ⟨some predecessor, height, vrfOut, cells⟩

def Block.hash (b : Block H) : H := BlockDigest.ofBlock b

def Block.vertex (b : Block H) : Vertex H := ⟨b.height, b.hash⟩

def HailBlock.hash (b : HailBlock H) : H := b.block.hash

def HailBlock.vertex (b : HailBlock H) : Vertex H := b.block.vertex

end

/-- `hail::Error`. Encoding and storage do not fail, so their variants are left out. -/
inductive HailError (H : Type) where
  | graph (error : GraphError (Vertex H))
  | invalidBlock (block : Block H)
  | invalidBlockHash (hash : H)
  | invalidBlockHeight (height : BlockHeight)
  | insufficientWeight
  | emptyDAG
  deriving DecidableEq

/-- The iteration orders in force while hail handles one message. -/
structure HailOrder (H : Type) where
  hashes : Listing H
  vertices : Listing (Vertex H)
  ids : Listing Id

end Subzero
