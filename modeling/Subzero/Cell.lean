import Subzero.Lib.HashMap

/-! Cells and cell ids. Digests are an abstract type: `blake3` of a `bincode`
encoding is a parameter, and the results that need it assume that it is
injective, which no function into 32 bytes can be. -/
namespace Subzero

inductive CellType where
  | coinbase
  | transfer
  | stake
  deriving DecidableEq

/-- The unlocking script, as the encodings of its key and signature. -/
structure CellUnlockScript where
  publicKey : List UInt8
  signature : List UInt8
  deriving DecidableEq

/-- A reference to an output of a cell. -/
structure OutputIndex (H : Type) where
  cellHash : H
  index : UInt8
  deriving DecidableEq

structure Input (H : Type) where
  outputIndex : OutputIndex H
  unlock : CellUnlockScript
  deriving DecidableEq

structure Output (H : Type) where
  capacity : UInt64
  cellType : CellType
  data : List UInt8
  lock : H
  deriving DecidableEq

structure Cell (H : Type) where
  inputs : Finset (Input H)
  outputs : List (Output H)
  deriving DecidableEq

/-- An id of one output of one cell. -/
structure CellId (H : Type) where
  bytes : H
  deriving DecidableEq

/-- The two digests that are taken: of a cell, and of a cell hash followed by the
position of an output. -/
class Blake3 (H : Type) where
  ofCell : Cell H → H
  ofOutput : H → UInt8 → H

section Ids
variable {H : Type} [DecidableEq H] [Blake3 H]

def Cell.hash (c : Cell H) : H := Blake3.ofCell c

def CellId.fromOutput (cellHash : H) (i : UInt8) : CellId H := ⟨Blake3.ofOutput cellHash i⟩

def OutputIndex.cellId (o : OutputIndex H) : CellId H := ⟨Blake3.ofOutput o.cellHash o.index⟩

def Input.cellId (i : Input H) : CellId H := i.outputIndex.cellId

/-- `CellIds::from_inputs` -/
def fromInputs (inputs : Finset (Input H)) : Finset (CellId H) := inputs.image Input.cellId

/-- `CellIds::from_outputs`: the position is cast to `u8`. -/
def fromOutputs (cellHash : H) (outputs : List (Output H)) : Finset (CellId H) :=
  ((List.range outputs.length).map fun i => CellId.fromOutput cellHash (UInt8.ofNat i)).toFinset

/-- The cell ids that a cell consumes. -/
def Cell.consumed (c : Cell H) : Finset (CellId H) := fromInputs c.inputs

/-- The cell ids that a cell produces. -/
def Cell.produced (c : Cell H) : Finset (CellId H) := fromOutputs c.hash c.outputs

theorem Cell.mem_produced {c : Cell H} {id : CellId H} :
    id ∈ c.produced ↔
      ∃ i < c.outputs.length, CellId.fromOutput c.hash (UInt8.ofNat i) = id := by
  simp [Cell.produced, fromOutputs]

theorem Cell.produced_eq_empty {c : Cell H} : c.produced = ∅ ↔ c.outputs = [] := by
  simp [Cell.produced, fromOutputs]

theorem Cell.produced_hash
    (ids : ∀ (h h' : H) i j, CellId.fromOutput h i = CellId.fromOutput h' j → h = h')
    {c c' : Cell H} {id : CellId H} (first : id ∈ c.produced) (second : id ∈ c'.produced) :
    c.hash = c'.hash := by
  obtain ⟨i, _, rfl⟩ := Cell.mem_produced.mp first
  obtain ⟨j, _, same⟩ := Cell.mem_produced.mp second
  exact (ids _ _ _ _ same).symm

/-- No two cells produce the same id. -/
theorem Cell.produced_disjoint (injective : Function.Injective (Cell.hash : Cell H → H))
    (ids : ∀ (h h' : H) i j, CellId.fromOutput h i = CellId.fromOutput h' j → h = h')
    {c c' : Cell H} (other : c ≠ c') : Disjoint c.produced c'.produced := by
  rw [Finset.disjoint_left]
  exact fun id first second => other (injective (Cell.produced_hash ids first second))

/-- A cell holds the hashes of the cells that it spends, so it cannot be one of them: its
hash ranks above theirs. -/
def Ranked (H : Type) [Blake3 H] : Prop :=
  ∃ rank : H → Nat, ∀ c : Cell H, ∀ i ∈ c.inputs, rank i.outputIndex.cellHash < rank c.hash

/-- `util::has_coinbase_output` -/
def hasCoinbaseOutput (c : Cell H) : Bool :=
  c.outputs.any fun o => o.cellType == .coinbase

end Ids

/-- `zfx_id::Id`, the identity of a node. -/
structure Id where
  bytes : BitVec 256
  deriving DecidableEq

abbrev SocketAddr := String

/-- The iteration orders in force while one message is handled. -/
structure HashOrder (H : Type) where
  cellIds : Listing (CellId H)
  hashes : Listing H
  ids : Listing Id

end Subzero
