import Subzero.Alpha.State
import Subzero.Encoding
import Subzero.Lib.Build

/-! The operations that make new cells: an amount is taken from the outputs that a key owns
in a cell, and is transferred or staked. A function returns `none` where the source panics. -/
namespace Subzero

/-- Default fee for making a transaction. -/
def FEE : UInt64 := 3

/-- The errors of `alpha::Error` that an operation can meet. -/
inductive OperationError where
  | bincode (text : String)
  | unspendableCell
  | exceedsAvailableFunds
  | zeroTransfer
  deriving DecidableEq

/-- `ed25519_dalek::Keypair`: the encoding of the public key, and the signature of a cell
id in its encoding. -/
structure Keypair (H : Type) where
  publicKey : List UInt8
  sign : CellId H → List UInt8

/-- `blake3` of an encoded public key. -/
class KeyDigest (H : Type) where
  ofPublic : List UInt8 → H

/-- A response from `consume_from_cell`. -/
structure ConsumeResult (H : Type) where
  consumed : UInt64
  residue : UInt64
  inputs : List (Input H)
  deriving DecidableEq

section Consume
variable {H : Type} [DecidableEq H] [Blake3 H] [KeyDigest H] [StakeCodec]

def Keypair.hash (keypair : Keypair H) : H := KeyDigest.ofPublic keypair.publicKey

def Input.new (keypair : Keypair H) (cellHash : H) (index : UInt8) : Input H :=
  let outputIndex : OutputIndex H := ⟨cellHash, index⟩
  ⟨outputIndex, ⟨keypair.publicKey, keypair.sign outputIndex.cellId⟩⟩

/-- Checks that the output has the right form. The states of a coinbase and of a transfer
have no fields, so that any data is one of them. -/
def validateOutput (output : Output H) : Except OperationError Unit :=
  match output.cellType with
  | .coinbase => .ok ()
  | .transfer => .ok ()
  | .stake =>
    match StakeCodec.nodeId output.data with
    | .error text => .error (.bincode text)
    | .ok _ => .ok ()

/-- The outputs that are locked to a key, each with its index as the loop counts it.
`Output::validate_capacity` refuses none. -/
def ownedOutputs (build : Build) (pkh : H) :
    List (Output H) → UInt8 → Option (Except OperationError (List (Output H × UInt8)))
  | [], _ => some (.ok [])
  | output :: rest, index =>
    match validateOutput output with
    | .error e => some (.error e)
    | .ok _ =>
      match build.add8 index 1 with
      -- the index overflows behind the last output too
      | none => none
      | some next =>
        (ownedOutputs build pkh rest next).map fun result =>
          result.map fun owned => if output.lock = pkh then (output, index) :: owned else owned

/-- Checks that the capacity is positive and does not exceed the sum of the outputs less
the fee. -/
def validateCapacity (build : Build) (outputs : List (Output H)) (capacity fee : UInt64) :
    Option (Except OperationError Unit) :=
  (build.sum64 (outputs.map Output.capacity) 0).map fun total =>
    if capacity = 0 then .error .zeroTransfer
    else if total < fee ∨ total - fee < capacity then .error .exceedsAvailableFunds
    else .ok ()

/-- The loop over the owned outputs. It ends when the amount is consumed; what is left of
the last output is the residue. -/
def consumeOutputs (ownerKey : Keypair H) (cellHash : H) (amount : UInt64) :
    List (Output H × UInt8) → (spendingCapacity : UInt64) → ConsumeResult H → ConsumeResult H
  | [], _, result => result
  | (output, index) :: rest, spendingCapacity, result =>
    if result.consumed < amount then
      let inputs := result.inputs ++ [Input.new ownerKey cellHash index]
      if output.capacity ≤ spendingCapacity then
        consumeOutputs ownerKey cellHash amount rest (spendingCapacity - output.capacity)
          ⟨result.consumed + output.capacity, result.residue, inputs⟩
      else
        consumeOutputs ownerKey cellHash amount rest spendingCapacity
          ⟨result.consumed + spendingCapacity, output.capacity - spendingCapacity, inputs⟩
    else result

/-- The capacity is validated before it is asked whether any output is owned. -/
def consumeFromCell (build : Build) (cell : Cell H) (amount : UInt64) (ownerKey : Keypair H) :
    Option (Except OperationError (ConsumeResult H)) :=
  match ownedOutputs build ownerKey.hash cell.outputs 0 with
  | none => none
  | some (.error e) => some (.error e)
  | some (.ok owned) =>
    match validateCapacity build (owned.map Prod.fst) amount FEE with
    | none => none
    | some (.error e) => some (.error e)
    | some (.ok _) =>
      if 0 < owned.length then
        some (.ok (consumeOutputs ownerKey cell.hash amount owned amount ⟨0, 0, []⟩))
      else some (.error .unspendableCell)

end Consume

section Outputs
variable {H : Type} [LinearOrder H]

/-- The order that is derived for `Output`. -/
instance : Ord (Output H) where
  compare := compareLex (compareOn Output.capacity)
    (compareLex (compareOn fun o => Encoding.variant o.cellType)
      (compareLex (compareOn Output.data) (compareOn Output.lock)))

/-- `Outputs::new` sorts the outputs. -/
def Outputs.new (outputs : List (Output H)) : List (Output H) :=
  outputs.insertionSort fun a b => (compare a b).isLE

end Outputs

section Operations
variable {H : Type} [LinearOrder H] [Blake3 H] [KeyDigest H] [StakeCodec]

/-- The data is empty, as a coinbase state has no fields. -/
def coinbaseOutput (recipientAddress : H) (capacity : UInt64) : Output H :=
  ⟨capacity, .coinbase, [], recipientAddress⟩

structure CoinbaseOperation (H : Type) where
  recipients : List (H × UInt64)

def CoinbaseOperation.tryInto (op : CoinbaseOperation H) : Cell H :=
  ⟨Encoding.Inputs.new [],
    Outputs.new (op.recipients.map fun recipient => coinbaseOutput recipient.1 recipient.2)⟩

/-- The data is empty, as a transfer state has no fields. -/
def transferOutput (pkh : H) (capacity : UInt64) : Output H := ⟨capacity, .transfer, [], pkh⟩

/-- The data is the id of the node. -/
def stakeOutput (nodeId : Id) (pkh : H) (capacity : UInt64) : Output H :=
  ⟨capacity, .stake, Encoding.hashBytes nodeId.bytes, pkh⟩

/-- What both operations make of a consumed amount: the main output, and an output with the
residue less the fee if there is more of it than the fee. -/
def payOut (mainOutput : UInt64 → Output H) (changeAddress : H) (result : ConsumeResult H) :
    Cell H :=
  let outputs :=
    if FEE < result.residue ∧ 0 < result.residue - FEE then
      [mainOutput result.consumed, transferOutput changeAddress (result.residue - FEE)]
    else [mainOutput result.consumed]
  ⟨Encoding.Inputs.new result.inputs, Outputs.new outputs⟩

structure TransferOperation (H : Type) where
  cell : Cell H
  recipientAddress : H
  changeAddress : H
  capacity : UInt64

def TransferOperation.transfer (op : TransferOperation H) (build : Build) (keypair : Keypair H) :
    Option (Except OperationError (Cell H)) :=
  (consumeFromCell build op.cell op.capacity keypair).map fun result =>
    result.map (payOut (transferOutput op.recipientAddress) op.changeAddress)

structure StakeOperation (H : Type) where
  cell : Cell H
  nodeId : Id
  address : H
  capacity : UInt64

def StakeOperation.stake (op : StakeOperation H) (build : Build) (keypair : Keypair H) :
    Option (Except OperationError (Cell H)) :=
  (consumeFromCell build op.cell op.capacity keypair).map fun result =>
    result.map (payOut (stakeOutput op.nodeId op.address) op.address)

end Operations
end Subzero
