import Mathlib.Data.UInt
import Subzero.Graph.DependencyGraph
import Subzero.Hail.Block

/-! The state of the alpha chain and its transition. Sums of capacities wrap, as they
do in a release build. -/
namespace Subzero

/-- The errors of `cell::Error` that a transition can meet. -/
inductive CellError where
  | invalidCoinbase
  | invalidStake
  deriving DecidableEq

/-- The errors of `alpha::Error` that a transition can meet. -/
inductive AlphaError (H : Type) where
  | bincode (text : String)
  | cell (error : CellError)
  | graph (error : GraphError H)
  | invalidCoinbase
  | undefinedCellIds
  | existingCellIds
  | exceedsCapacity
  deriving DecidableEq

/-- `bincode` on the data of a stake output: the node id of a `StakeState`, or the
text of an error. -/
class StakeCodec where
  nodeId : List UInt8 → Except String Id

/-- A stake and a coinbase output may not consume outputs of their own type. -/
def Output.verify {H : Type} (output : Output H) (outputs : List (Output H)) :
    Except CellError Unit :=
  match output.cellType with
  | .coinbase => if outputs.length ≠ 0 then .error .invalidCoinbase else .ok ()
  | .transfer => .ok ()
  | .stake => if outputs.length ≠ 0 then .error .invalidStake else .ok ()

/-- The iteration orders in force while one block is applied. -/
structure BlockOrder (H : Type) where
  dependencies : Listing (CellIds H)
  liveCells : Listing (CellIds H)

namespace Alpha

structure State (H : Type) where
  height : UInt64
  totalSpendingCapacity : UInt64
  totalStakingCapacity : UInt64
  validators : List (Id × UInt64)
  liveCells : HashMap (CellIds H) (Cell H)

/-- What the outputs of a cell add up to, by their types. -/
structure Production where
  coinbase : UInt64
  staking : UInt64
  produced : UInt64
  validators : List (Id × UInt64)

namespace State
variable {H : Type} [DecidableEq H] [Blake3 H]

def new : State H := ⟨0, 0, 0, [], ∅⟩

/-- The outputs of a live cell that are inputs, with their ids. An output whose id is
no longer in the key of its cell is not live. -/
def consumedFrom (input liveIds : CellIds H) (live : Cell H) : List (CellId H × Output H) :=
  if (input ∩ liveIds).Nonempty then
    live.outputs.zipIdx.filterMap fun (output, i) =>
      let id := CellId.fromOutput live.hash (UInt8.ofNat i)
      if id ∈ input ∩ liveIds then some (id, output) else none
  else []

/-- All the live outputs that are inputs. -/
def consumed (order : Listing (CellIds H)) (s : State H) (input : CellIds H) :
    List (CellId H × Output H) :=
  (order.list s.liveCells.keys).flatMap fun liveIds =>
    match s.liveCells.lookup liveIds with
    | some live => consumedFrom input liveIds live
    | none => []

/-- The output is verified once per consumed output, with those of its own type so
far as the arguments; without a consumed output it is not verified at all. -/
def verifyOutput (output : Output H) (arguments : List (Output H)) :
    List (Output H) → Except CellError Unit
  | [] => .ok ()
  | consumed :: rest =>
    let arguments :=
      if output.cellType = consumed.cellType then arguments ++ [consumed] else arguments
    match output.verify arguments with
    | .error e => .error e
    | .ok _ => verifyOutput output arguments rest

def verifyOutputs (consumed : List (Output H)) : List (Output H) → Except CellError Unit
  | [] => .ok ()
  | output :: rest =>
    match verifyOutput output [] consumed with
    | .error e => .error e
    | .ok _ => verifyOutputs consumed rest

/-- The entries are written one by one into a new map. -/
def writeWithout (cellIds : CellIds H) (live : HashMap (CellIds H) (Cell H)) :
    List (CellIds H) → HashMap (CellIds H) (Cell H) →
    Except (AlphaError H) (HashMap (CellIds H) (Cell H))
  | [], written => .ok written
  | liveIds :: rest, written =>
    match live.lookup liveIds with
    | none => writeWithout cellIds live rest written
    | some cell =>
      let key := if (cellIds ∩ liveIds).Nonempty then liveIds \ (cellIds ∩ liveIds) else liveIds
      if key ∈ written then .error .existingCellIds
      else writeWithout cellIds live rest (written.insert key cell)

/-- The live cells without some ids. The map is returned; the state keeps its own. -/
def removeIntersection (order : Listing (CellIds H)) (s : State H) (cellIds : CellIds H) :
    Except (AlphaError H) (HashMap (CellIds H) (Cell H)) :=
  writeWithout cellIds s.liveCells (order.list s.liveCells.keys) ∅

/-- The loop over the outputs of a cell. A coinbase output is checked against the
height in the state. -/
def produce [StakeCodec] (height : UInt64) :
    List (Output H) → Production → Except (AlphaError H) Production
  | [], made => .ok made
  | output :: rest, made =>
    match output.cellType with
    | .coinbase =>
      if height = 0 then
        produce height rest { made with coinbase := made.coinbase + output.capacity }
      else .error .invalidCoinbase
    | .stake =>
      match StakeCodec.nodeId output.data with
      | .error text => .error (.bincode text)
      | .ok nodeId =>
        produce height rest { made with
          validators := made.validators ++ [(nodeId, output.capacity)]
          staking := made.staking + output.capacity }
    | .transfer => produce height rest { made with produced := made.produced + output.capacity }

/-- The totals after a cell that consumes `capacity`. The height is that of the state. -/
def settle (s : State H) (capacity : UInt64) (made : Production) :
    Except (AlphaError H) (State H) :=
  if made.produced + made.staking ≤ capacity ∧ 0 < capacity ∧ made.coinbase = 0 then
    .ok { s with
      totalSpendingCapacity := s.totalSpendingCapacity - capacity + made.produced
      totalStakingCapacity := s.totalStakingCapacity + made.staking }
  else if s.height = 0 ∧ 0 < made.coinbase ∧ made.produced = 0 ∧ made.staking = 0 then
    .ok { s with totalSpendingCapacity := s.totalSpendingCapacity + made.coinbase }
  else .error .exceedsCapacity

/-- One pass of the loop over the ordered cells. The result of `remove_intersection`
is dropped, so the consumed ids stay in the keys of the live cells. -/
def applyCell [StakeCodec] (order : Listing (CellIds H)) (s : State H) (cell : Cell H) :
    Except (AlphaError H) (State H) :=
  let taken := s.consumed order cell.consumed
  let outputs := taken.map Prod.snd
  if (taken.map Prod.fst).toFinset ≠ cell.consumed then .error .undefinedCellIds
  else
    match verifyOutputs outputs cell.outputs with
    | .error e => .error (.cell e)
    | .ok _ =>
      match s.removeIntersection order cell.consumed with
      | .error e => .error e
      | .ok _ =>
        match produce s.height cell.outputs ⟨0, 0, 0, []⟩ with
        | .error e => .error e
        | .ok made =>
          if cell.produced ∈ s.liveCells then .error .existingCellIds
          else
            settle
              { s with
                validators := s.validators ++ made.validators
                liveCells := s.liveCells.insert cell.produced cell }
              (outputs.map Output.capacity).sum made

def applyCells [StakeCodec] (order : Listing (CellIds H)) :
    List (Cell H) → State H → Except (AlphaError H) (State H)
  | [], s => .ok s
  | cell :: rest, s =>
    match s.applyCell order cell with
    | .error e => .error e
    | .ok s => applyCells order rest s

def insertAll : List (Cell H) → DependencyGraph H → Except (GraphError H) (DependencyGraph H)
  | [], dg => .ok dg
  | cell :: rest, dg =>
    match dg.insert cell with
    | .error e => .error e
    | .ok dg => insertAll rest dg

/-- The cells of a block in the order of their dependencies. -/
def orderedCells (order : Listing (CellIds H)) (block : Block H) :
    Except (GraphError H) (List (Cell H)) :=
  match insertAll block.cells .new with
  | .error e => .error e
  | .ok dg => dg.topologicalCells order block.cells

/-- Apply a block. The height of the state stays what it is, and that of the block is
not read. -/
def apply [StakeCodec] (order : BlockOrder H) (s : State H) (block : Block H) :
    Except (AlphaError H) (State H) :=
  match orderedCells order.dependencies block with
  | .error e => .error (.graph e)
  | .ok cells => applyCells order.liveCells cells s

end State
end Alpha

section Consumed
variable {H : Type} [DecidableEq H] [Blake3 H]

/-- The outputs of a cell with their ids. -/
def Cell.withIds (c : Cell H) : List (CellId H × Output H) :=
  c.outputs.zipIdx.map fun x => (CellId.fromOutput c.hash (UInt8.ofNat x.2), x.1)

theorem Cell.mem_withIds {c : Cell H} {x : CellId H × Output H} (listed : x ∈ c.withIds) :
    x.1 ∈ c.produced := by
  obtain ⟨⟨output, i⟩, found, rfl⟩ := List.mem_map.mp listed
  exact Cell.mem_produced.mpr ⟨i, (List.mem_zipIdx' found).1, rfl⟩

theorem Alpha.State.consumedFrom_eq (input liveIds : CellIds H) (live : Cell H) :
    consumedFrom input liveIds live = live.withIds.filter fun x => x.1 ∈ input ∩ liveIds := by
  unfold consumedFrom
  split
  · rw [Cell.withIds, ← List.filterMap_eq_filter, List.filterMap_map]
    congr 1
    funext x
    simp [Option.guard]
  · rename_i apart
    rw [Finset.not_nonempty_iff_eq_empty] at apart
    simp [apart]

end Consumed
end Subzero
