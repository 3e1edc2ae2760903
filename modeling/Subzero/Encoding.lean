import Subzero.Lib.Codec
import Subzero.Storage.Block

/-! The `bincode` encoding of cells: numbers are little-endian, a sequence is written after
its length as a `u64`, and a struct is its fields one after the other. -/
namespace Subzero.Encoding
open Storage

/-- The encodings of the keys and signatures of `ed25519_dalek`: each has a fixed size, and
reading one checks it. -/
structure Ed25519 where
  keySize : Nat
  signatureSize : Nat
  isKey : List UInt8 → Bool
  isSignature : List UInt8 → Bool

section Formats
variable {H : Type} [HashBytes H]

def hashBytes (h : H) : List UInt8 := (HashBytes.toBytes h).map UInt8.ofFin

theorem ofBytes_hashBytes (h : H) : HashBytes.ofBytes ((hashBytes h).map UInt8.toFin) = h := by
  have back : (hashBytes h).map UInt8.toFin = HashBytes.toBytes h := by
    simp [hashBytes, Function.comp_def]
  rw [back, HashBytes.ofBytes_toBytes]

theorem hashBytes_injective : Function.Injective (hashBytes : H → List UInt8) := by
  intro h h' same
  rw [← ofBytes_hashBytes h, same, ofBytes_hashBytes]

/-- A `[u8; 32]` is written without a length. -/
def hash : Codec H :=
  (Codec.bytes 32 fun _ => true).via hashBytes
    (fun bytes => some (HashBytes.ofBytes (bytes.map UInt8.toFin)))
    fun h => congrArg some (ofBytes_hashBytes h)

def byte : Codec UInt8 :=
  (Codec.uint 1).via UInt8.toNat (fun n => some (UInt8.ofNat n)) (by simp)

def u64 : Codec UInt64 :=
  (Codec.uint 8).via UInt64.toNat (fun n => some (UInt64.ofNat n)) (by simp)

def variant : CellType → Nat
  | .coinbase => 0
  | .transfer => 1
  | .stake => 2

def ofVariant : Nat → Option CellType
  | 0 => some .coinbase
  | 1 => some .transfer
  | 2 => some .stake
  | _ => none

/-- The variant of an enum is a `u32`. -/
def cellType : Codec CellType :=
  (Codec.uint 4).via variant ofVariant (by rintro (_ | _ | _) <;> rfl)

def cellUnlockScript (ed : Ed25519) : Codec CellUnlockScript :=
  ((Codec.bytes ed.keySize ed.isKey).pair (Codec.bytes ed.signatureSize ed.isSignature)).via
    (fun u => (u.publicKey, u.signature)) (fun p => some ⟨p.1, p.2⟩) fun _ => rfl

def outputIndex : Codec (OutputIndex H) :=
  (hash.pair byte).via (fun o => (o.cellHash, o.index)) (fun p => some ⟨p.1, p.2⟩) fun _ => rfl

def input (ed : Ed25519) : Codec (Input H) :=
  (outputIndex.pair (cellUnlockScript ed)).via (fun i => (i.outputIndex, i.unlock))
    (fun p => some ⟨p.1, p.2⟩) fun _ => rfl

def output : Codec (Output H) :=
  (u64.pair (cellType.pair ((byte.counted 8).pair hash))).via
    (fun o => (o.capacity, o.cellType, o.data, o.lock))
    (fun p => some ⟨p.1, p.2.1, p.2.2.1, p.2.2.2⟩) fun _ => rfl

/-- By the encoded keys, then by the encoded signatures. -/
instance : Ord CellUnlockScript where
  compare := compareLex (compareOn CellUnlockScript.publicKey)
    (compareOn CellUnlockScript.signature)

instance : Ord (OutputIndex H) where
  compare := compareLex (compareOn fun o => hashBytes o.cellHash) (compareOn OutputIndex.index)

instance : Ord (Input H) where
  compare := compareLex (compareOn Input.outputIndex) (compareOn Input.unlock)

instance : Std.TransOrd CellUnlockScript :=
  inferInstanceAs (Std.TransCmp (compareLex _ _))

instance : Std.TransOrd (OutputIndex H) :=
  inferInstanceAs (Std.TransCmp (compareLex _ _))

instance : Std.TransOrd (Input H) :=
  inferInstanceAs (Std.TransCmp (compareLex _ _))

-- Equal encodings are encodings of equal keys, so scripts that compare as equal are equal.
instance : Std.LawfulEqOrd CellUnlockScript where
  eq_of_compare := by
    rintro ⟨key, signature⟩ ⟨key', signature'⟩ same
    obtain ⟨keys, signatures⟩ := compareLex_eq_eq.mp same
    obtain rfl : key = key' := Std.LawfulEqCmp.eq_of_compare keys
    obtain rfl : signature = signature' := Std.LawfulEqCmp.eq_of_compare signatures
    rfl

instance : Std.LawfulEqOrd (OutputIndex H) where
  eq_of_compare := by
    rintro ⟨hash, index⟩ ⟨hash', index'⟩ same
    obtain ⟨hashes, indices⟩ := compareLex_eq_eq.mp same
    obtain rfl : hash = hash' := hashBytes_injective (Std.LawfulEqCmp.eq_of_compare hashes)
    obtain rfl : index = index' := Std.LawfulEqCmp.eq_of_compare indices
    rfl

instance : Std.LawfulEqOrd (Input H) where
  eq_of_compare := by
    rintro ⟨spent, unlock⟩ ⟨spent', unlock'⟩ same
    obtain ⟨indices, unlocks⟩ := compareLex_eq_eq.mp same
    obtain rfl : spent = spent' := Std.LawfulEqCmp.eq_of_compare indices
    obtain rfl : unlock = unlock' := Std.LawfulEqCmp.eq_of_compare unlocks
    rfl

end Formats

section Cells
variable {H : Type} [DecidableEq H] [HashBytes H]

/-- `Inputs::new` -/
def Inputs.new (inputs : List (Input H)) : Finset (Input H) := inputs.toFinset

/-- `Inputs::eq`: the elements of both sets are sorted first. -/
def Inputs.eq (order order' : Listing (Input H)) (s t : Finset (Input H)) : Bool :=
  order.sorted compare s == order'.sorted compare t

/-- The equality that is derived for `Cell`. -/
def Cell.eq (order order' : Listing (Input H)) (c d : Cell H) : Bool :=
  Inputs.eq order order' c.inputs d.inputs && c.outputs == d.outputs

/-- `Inputs` is written as a bare sequence, and read as a struct with one field: a struct
has no header, so these agree. -/
def inputs (ed : Ed25519) (order : Listing (Input H)) : Codec (Finset (Input H)) :=
  (input ed).sortedSet 8 compare order

def outputs : Codec (List (Output H)) := output.counted 8

def cell (ed : Ed25519) (order : Listing (Input H)) : Codec (Cell H) :=
  ((inputs ed order).pair outputs).via (fun c => (c.inputs, c.outputs))
    (fun p => some ⟨p.1, p.2⟩) fun _ => rfl

/-- `bincode::serialize` of a cell, by a node whose hash sets are listed in an order. -/
def serialize (ed : Ed25519) (order : Listing (Input H)) (c : Cell H) : List UInt8 :=
  (cell ed order).encode c

/-- `bincode::deserialize`, which allows trailing bytes. -/
def deserialize (ed : Ed25519) (order : Listing (Input H)) (bytes : List UInt8) :
    Option (Cell H) :=
  ((cell ed order).decode bytes).map Prod.fst

/-- `Cell::hash` and `OutputIndex::cell_id` by a digest of bytes; an id is the digest of a
`Vec<u8>`. -/
abbrev digests (ed : Ed25519) (order : Listing (Input H)) (blake3 : List UInt8 → H) : Blake3 H where
  ofCell c := blake3 (serialize ed order c)
  ofOutput h i := blake3 ((byte.counted 8).encode (hashBytes h ++ [i]))

/-- What the types of the source say of a cell: its keys and signatures are such, and a
collection has a `usize` for its length. -/
structure Sized (ed : Ed25519) (c : Cell H) : Prop where
  inputs : c.inputs.card < 2 ^ 64
  keys : ∀ i ∈ c.inputs, i.unlock.publicKey.length = ed.keySize ∧ ed.isKey i.unlock.publicKey
  signatures : ∀ i ∈ c.inputs,
    i.unlock.signature.length = ed.signatureSize ∧ ed.isSignature i.unlock.signature
  outputs : c.outputs.length < 2 ^ 64
  data : ∀ o ∈ c.outputs, o.data.length < 2 ^ 64

omit [DecidableEq H] in
@[simp] theorem hash_fits (h : H) : hash.fits h := by
  simp [hash, Codec.via, Codec.bytes, hashBytes, HashBytes.length_toBytes]

@[simp] theorem byte_fits (b : UInt8) : byte.fits b := by
  simpa [byte, Codec.via, Codec.uint] using b.toNat_lt

omit [DecidableEq H] in
theorem input_fits {ed : Ed25519} {i : Input H} :
    (input ed).fits i ↔
      (i.unlock.publicKey.length = ed.keySize ∧ ed.isKey i.unlock.publicKey) ∧
        i.unlock.signature.length = ed.signatureSize ∧ ed.isSignature i.unlock.signature := by
  have index : (outputIndex (H := H)).fits i.outputIndex := ⟨hash_fits _, byte_fits _⟩
  exact and_iff_right index

omit [DecidableEq H] in
theorem output_fits {o : Output H} : output.fits o ↔ o.data.length < 2 ^ 64 := by
  have capacity : u64.fits o.capacity := by
    simpa [u64, Codec.via, Codec.uint] using o.capacity.toNat_lt
  have type : cellType.fits o.cellType := by
    cases same : o.cellType <;> simp [cellType, Codec.via, Codec.uint, variant]
  constructor
  · rintro ⟨-, -, data, -⟩
    exact data.1
  · intro data
    exact ⟨capacity, type, ⟨data, fun b _ => byte_fits b⟩, hash_fits _⟩

theorem cell_fits {ed : Ed25519} (order : Listing (Input H)) {c : Cell H}
    (sized : Sized ed c) : (cell ed order).fits c := by
  constructor
  · apply Codec.sortedSet_fits.mpr
    exact ⟨sized.inputs, fun i member =>
      input_fits.mpr ⟨sized.keys i member, sized.signatures i member⟩⟩
  · exact ⟨sized.outputs, fun o member => output_fits.mpr (sized.data o member)⟩

/-- The iteration order is sorted away. -/
theorem serialize_unique (ed : Ed25519) (order order' : Listing (Input H)) (c : Cell H) :
    serialize ed order c = serialize ed order' c := by
  have same := order.sorted_unique compare order' c.inputs
  simp only [serialize, cell, inputs, Codec.via, Codec.pair, Codec.sortedSet, same]

theorem serialize_inj {ed : Ed25519} (order order' : Listing (Input H)) {c d : Cell H}
    (first : Sized ed c) (second : Sized ed d) :
    serialize ed order c = serialize ed order' d ↔ c = d := by
  rw [serialize_unique ed order' order d]
  exact (cell ed order).encode_inj (cell_fits order first) (cell_fits order second)

theorem deserialize_serialize {ed : Ed25519} (order order' : Listing (Input H)) {c : Cell H}
    (sized : Sized ed c) : deserialize ed order' (serialize ed order c) = some c := by
  have read := (cell ed order').decode_encode c [] (cell_fits order' sized)
  rw [List.append_nil] at read
  rw [deserialize, serialize_unique ed order order' c, serialize, read]
  rfl

theorem Inputs.eq_iff (order order' : Listing (Input H)) {s t : Finset (Input H)} :
    Inputs.eq order order' s t = true ↔ s = t := by
  rw [Inputs.eq, beq_iff_eq, order'.sorted_unique compare order]
  constructor
  · intro same
    rw [← order.sorted_toFinset compare s, same, order.sorted_toFinset]
  · rintro rfl
    rfl

theorem Cell.eq_iff (order order' : Listing (Input H)) {c d : Cell H} :
    Cell.eq order order' c d = true ↔ c = d := by
  obtain ⟨inputs, outputs⟩ := c
  obtain ⟨inputs', outputs'⟩ := d
  simp [Cell.eq, Inputs.eq_iff]

/-- A cell has one encoding at all nodes, however its inputs were given, and is read back
from it. -/
theorem cell_encoding_canonical (ed : Ed25519) (order order' : Listing (Input H)) :
    (∀ c : Cell H, Sized ed c → deserialize ed order' (serialize ed order c) = some c) ∧
      (∀ given given' : List (Input H), (∀ i, i ∈ given ↔ i ∈ given') →
        ∀ outputs, serialize ed order ⟨Inputs.new given, outputs⟩ =
          serialize ed order' ⟨Inputs.new given', outputs⟩) ∧
      (∀ c d : Cell H, Sized ed c → Sized ed d →
        (serialize ed order c = serialize ed order' d ↔ c = d) ∧
          (Cell.eq order order' c d = true ↔ c = d)) ∧
      ∀ (blake3 : List UInt8 → H) (c : Cell H),
        (digests ed order blake3).ofCell c = (digests ed order' blake3).ofCell c := by
  refine ⟨fun c sized => deserialize_serialize order order' sized, ?_, ?_, ?_⟩
  · intro given given' same outputs
    have set : Inputs.new given = Inputs.new given' := by
      ext i
      simp [Inputs.new, same]
    rw [set]
    exact serialize_unique ed order order' _
  · intro c d first second
    exact ⟨serialize_inj order order' first second, Cell.eq_iff order order'⟩
  · intro blake3 c
    exact congrArg blake3 (serialize_unique ed order order' c)

end Cells

section Sample

/-- A key is written as a byte string of 32, a signature as 64 bytes without a length. -/
def dalek : Ed25519 := ⟨40, 64, fun bytes => bytes.take 8 == littleEndian 8 32, fun _ => true⟩

def unlockWith (key signature : UInt8) : CellUnlockScript :=
  ⟨littleEndian 8 32 ++ List.replicate 32 key, List.replicate 64 signature⟩

def firstSpend : Input (BitVec 256) := ⟨⟨5, 0⟩, unlockWith 1 2⟩

def secondSpend : Input (BitVec 256) := ⟨⟨3, 1⟩, unlockWith 1 4⟩

def sampleCell (spends : List (Input (BitVec 256))) : Cell (BitVec 256) :=
  ⟨Inputs.new spends, [⟨700, .transfer, [1, 2, 3], 9⟩]⟩

theorem sampleCell_sized : Sized dalek (sampleCell [firstSpend, secondSpend]) where
  inputs := by decide
  keys := by decide
  signatures := by decide
  outputs := by decide
  data := by decide

theorem sampleCell_sized_first : Sized dalek (sampleCell [firstSpend]) where
  inputs := by decide
  keys := by decide
  signatures := by decide
  outputs := by decide
  data := by decide

/-- Two inputs in either order and with a repetition, and the cell without the second. -/
theorem cell_encoding_canonical_swapped : ∀ order order' : Listing (Input (BitVec 256)),
    deserialize dalek order' (serialize dalek order (sampleCell [firstSpend, secondSpend])) =
        some (sampleCell [firstSpend, secondSpend]) ∧
      serialize dalek order (sampleCell [firstSpend, secondSpend]) =
        serialize dalek order' (sampleCell [secondSpend, firstSpend, secondSpend]) ∧
      serialize dalek order (sampleCell [firstSpend, secondSpend]) ≠
        serialize dalek order' (sampleCell [firstSpend]) := by
  intro order order'
  obtain ⟨reads, gives, apart, -⟩ := cell_encoding_canonical dalek order order'
  have other : sampleCell [firstSpend, secondSpend] ≠ sampleCell [firstSpend] := by decide
  have differs := (apart _ _ sampleCell_sized sampleCell_sized_first).1
  exact ⟨reads _ sampleCell_sized, gives _ _ (by simp [or_comm]) _,
    fun same => other (differs.mp same)⟩

end Sample

end Subzero.Encoding
