import Subzero.Encoding
import Subzero.Lib.Store
import Subzero.Sleet.Tx

/-! The databases of transactions, of hail blocks and of cells. Each has the `bincode`
encoding of a record under the 32 bytes of its hash. Sleet and hail treat these databases
as maps of records. -/
namespace Subzero

namespace Encoding
open Storage
variable {H : Type} [DecidableEq H] [HashBytes H]

def statusVariant : TxStatus → Nat
  | .pending => 0
  | .queried => 1
  | .accepted => 2
  | .rejected => 3
  | .removed => 4

def ofStatusVariant : Nat → Option TxStatus
  | 0 => some .pending
  | 1 => some .queried
  | 2 => some .accepted
  | 3 => some .rejected
  | 4 => some .removed
  | _ => none

def txStatus : Codec TxStatus :=
  (Codec.uint 4).via statusVariant ofStatusVariant (by rintro (_ | _ | _ | _ | _) <;> rfl)

def tx (ed : Ed25519) (order : Listing (Input H)) : Codec (Tx H) :=
  ((hash.counted 8).pair ((cell ed order).pair txStatus)).via
    (fun tx => (tx.parents, tx.cell, tx.status)) (fun p => some ⟨p.1, p.2.1, p.2.2⟩) fun _ => rfl

omit [DecidableEq H] in
def vertex : Codec (Vertex H) :=
  (u64.pair hash).via (fun v => (v.height, v.blockHash)) (fun p => some ⟨p.1, p.2⟩) fun _ => rfl

def block (ed : Ed25519) (order : Listing (Input H)) : Codec (Block H) :=
  (hash.option.pair (u64.pair (hash.pair ((cell ed order).counted 8)))).via
    (fun b => (b.predecessor, b.height, b.vrfOut, b.cells))
    (fun p => some ⟨p.1, p.2.1, p.2.2.1, p.2.2.2⟩) fun _ => rfl

def hailBlock (ed : Ed25519) (order : Listing (Input H)) : Codec (HailBlock H) :=
  (vertex.option.pair (block ed order)).via (fun b => (b.parent, b.block))
    (fun p => some ⟨p.1, p.2⟩) fun _ => rfl

/-- Collections of a transaction have a `usize` for their length. -/
structure TxSized (ed : Ed25519) (tx : Tx H) : Prop where
  parents : tx.parents.length < 2 ^ 64
  cell : Sized ed tx.cell

structure BlockSized (ed : Ed25519) (b : Block H) : Prop where
  cells : b.cells.length < 2 ^ 64
  each : ∀ c ∈ b.cells, Sized ed c

/-- The encoding of a cell is the same for every iteration order. -/
theorem cell_unique (ed : Ed25519) (order order' : Listing (Input H)) :
    cell ed order = cell ed order' := by
  have sorted : order.sorted compare = order'.sorted compare :=
    funext fun s => order.sorted_unique compare order' s
  simp only [cell, inputs, Codec.sortedSet, sorted]

theorem tx_unique (ed : Ed25519) (order order' : Listing (Input H)) :
    tx ed order = tx ed order' := by
  rw [tx, cell_unique ed order order', tx]

theorem hailBlock_unique (ed : Ed25519) (order order' : Listing (Input H)) :
    hailBlock ed order = hailBlock ed order' := by
  rw [hailBlock, block, cell_unique ed order order', hailBlock, block]

omit [DecidableEq H] [HashBytes H] in
@[simp] theorem u64_fits (n : UInt64) : u64.fits n := by
  simpa [u64, Codec.via, Codec.uint] using n.toNat_lt

theorem sized_of_fits {ed : Ed25519} {order : Listing (Input H)} {c : Cell H}
    (fits : (cell ed order).fits c) : Sized ed c := by
  obtain ⟨inputs, outputs⟩ := fits
  obtain ⟨few, each⟩ := Codec.sortedSet_fits.mp inputs
  exact ⟨few, fun i listed => (input_fits.mp (each i listed)).1,
    fun i listed => (input_fits.mp (each i listed)).2, outputs.1,
    fun o listed => output_fits.mp (outputs.2 o listed)⟩

theorem tx_fits_iff {ed : Ed25519} {order : Listing (Input H)} {t : Tx H} :
    (tx ed order).fits t ↔ TxSized ed t := by
  constructor
  · rintro ⟨parents, cell, -⟩
    exact ⟨parents.1, sized_of_fits cell⟩
  · intro sized
    have status : txStatus.fits t.status := by
      cases same : t.status <;> simp [txStatus, Codec.via, Codec.uint, statusVariant]
    exact ⟨⟨sized.parents, fun h _ => hash_fits h⟩, cell_fits order sized.cell, status⟩

theorem hailBlock_fits {ed : Ed25519} (order : Listing (Input H)) {b : HailBlock H}
    (sized : BlockSized ed b.block) : (hailBlock ed order).fits b :=
  ⟨fun v _ => ⟨u64_fits v.height, hash_fits v.blockHash⟩, fun h _ => hash_fits h,
    u64_fits b.block.height, hash_fits b.block.vrfOut, sized.cells,
    fun c listed => cell_fits order (sized.each c listed)⟩

end Encoding

namespace Storage
open Encoding hiding hash tx block

/-- `storage::Error`, as the databases of records return it. -/
inductive Error where
  | bincode
  | invalidTx
  | invalidHailBlock
  | invalidCell
  deriving DecidableEq

section Records
variable {H V : Type} [DecidableEq H] [HashBytes H]

/-- `is_known_tx`, `is_known_block` and `is_known_cell` -/
def isKnown (db : ByteStore) (hash : H) : Bool := hashBytes hash ∈ db

/-- Returns the bytes that were stored under the hash before. -/
def insertRecord (c : Codec V) (db : ByteStore) (hash : H) (v : V) :
    Option (List UInt8) × ByteStore :=
  (db.lookup (hashBytes hash), db.insert (hashBytes hash) (c.encode v))

def getRecord (c : Codec V) (missing : Error) (db : ByteStore) (hash : H) :
    Except Error (H × V) :=
  match db.lookup (hashBytes hash) with
  | some bytes =>
    match c.read bytes with
    | some v => .ok (hash, v)
    | none => .error .bincode
  | none => .error missing

end Records

section Sources
variable {H : Type} [DecidableEq H] [HashBytes H] (ed : Ed25519) (order : Listing (Input H))

def insertTx [Blake3 H] (db : ByteStore) (tx : Tx H) : Option (List UInt8) × ByteStore :=
  insertRecord (Encoding.tx ed order) db tx.hash tx

def getTx (db : ByteStore) (hash : H) : Except Error (H × Tx H) :=
  getRecord (Encoding.tx ed order) .invalidTx db hash

/-- The checks of the stored status share their lookup. -/
def checkStatus (test : TxStatus → Bool) (db : ByteStore) (hash : H) : Except Error Bool :=
  match db.lookup (hashBytes hash) with
  | some bytes =>
    match (Encoding.tx ed order).read bytes with
    | some tx => .ok (test tx.status)
    | none => .error .bincode
  | none => .error .invalidTx

def isAcceptedTx (db : ByteStore) (hash : H) : Except Error Bool :=
  checkStatus ed order (· == .accepted) db hash

def isRemovedTx (db : ByteStore) (hash : H) : Except Error Bool :=
  checkStatus ed order (· == .removed) db hash

def cannotBeAccepted (db : ByteStore) (hash : H) : Except Error Bool :=
  checkStatus ed order (fun status => status == .removed || status == .rejected) db hash

/-- Bytes that cannot be read are taken out of the database, as if the function had dropped
the transaction. -/
def updateAndFetch (db : ByteStore) (hash : H) (f : Option (Tx H) → Option (Tx H)) :
    Except Error (Tx H) × ByteStore :=
  match db.updateAndFetch (hashBytes hash) ((Encoding.tx ed order).lift f) with
  | (some bytes, db') =>
    match (Encoding.tx ed order).read bytes with
    | some tx => (.ok tx, db')
    | none => (.error .bincode, db')
  | (none, db') => (.error .invalidTx, db')

def setStatus (db : ByteStore) (hash : H) (status : TxStatus) : Except Error Unit × ByteStore :=
  let updated := updateAndFetch ed order db hash fun tx => tx.map ({ · with status := status })
  (updated.1.map fun _ => (), updated.2)

def insertHailBlock [BlockDigest H] (db : ByteStore) (block : HailBlock H) :
    Option (List UInt8) × ByteStore :=
  insertRecord (hailBlock ed order) db block.hash block

def getHailBlock (db : ByteStore) (hash : H) : Except Error (H × HailBlock H) :=
  getRecord (hailBlock ed order) .invalidHailBlock db hash

def insertCell [Blake3 H] (db : ByteStore) (cell : Cell H) : Option (List UInt8) × ByteStore :=
  insertRecord (Encoding.cell ed order) db cell.hash cell

def getCell (db : ByteStore) (hash : H) : Except Error (H × Cell H) :=
  getRecord (Encoding.cell ed order) .invalidCell db hash

end Sources

/-- The calls that every database of records takes. -/
inductive RecordCall (H V : Type) where
  | isKnown (hash : H)
  | insert (v : V)
  | get (hash : H)

inductive RecordAnswer (H V : Type) where
  | known (stored : Bool)
  | inserted (old : Option (List UInt8))
  | got (found : Except Error (H × V))

inductive TxCall (H : Type) where
  | record (call : RecordCall H (Tx H))
  | isAcceptedTx (hash : H)
  | isRemovedTx (hash : H)
  | cannotBeAccepted (hash : H)
  | updateAndFetch (hash : H) (f : Option (Tx H) → Option (Tx H))
  | setStatus (hash : H) (status : TxStatus)

inductive TxAnswer (H : Type) where
  | record (answer : RecordAnswer H (Tx H))
  | checked (test : Except Error Bool)
  | updated (tx : Except Error (Tx H))
  | set (done : Except Error Unit)

section Machines
variable {H V : Type} [DecidableEq H] [HashBytes H]

/-- A database of records, by the encoding of a record, its hash and the error for a record
that is missing. -/
def recordBytes (c : Codec V) (hashOf : V → H) (missing : Error) (db : ByteStore) :
    RecordCall H V → RecordAnswer H V × ByteStore
  | .isKnown hash => (.known (isKnown db hash), db)
  | .insert v =>
    let (old, db') := insertRecord c db (hashOf v) v
    (.inserted old, db')
  | .get hash => (.got (getRecord c missing db hash), db)

/-- A map of records that answers the calls. -/
def recordMap (c : Codec V) (hashOf : V → H) (missing : Error) (m : HashMap H V) :
    RecordCall H V → RecordAnswer H V × HashMap H V
  | .isKnown hash => (.known (hash ∈ m), m)
  | .insert v => (.inserted ((m.lookup (hashOf v)).map c.encode), m.insert (hashOf v) v)
  | .get hash =>
    match m.lookup hash with
    | some v => (.got (.ok (hash, v)), m)
    | none => (.got (.error missing), m)

theorem record_simulates {c : Codec V} {hashOf : V → H} {missing : Error} {db : ByteStore}
    {m : HashMap H V} (holds : Holds hashBytes c db m) {call : RecordCall H V}
    (fits : ∀ v, call = .insert v → c.fits v) :
    (recordBytes c hashOf missing db call).1 = (recordMap c hashOf missing m call).1 ∧
      Holds hashBytes c (recordBytes c hashOf missing db call).2
        (recordMap c hashOf missing m call).2 := by
  cases call with
  | isKnown hash =>
    have same := holds.contains hash
    simp only [recordBytes, recordMap, isKnown, same, and_true, holds]
  | insert v =>
    have old := holds.entries (hashOf v)
    exact ⟨congrArg RecordAnswer.inserted old,
      holds.insert hashBytes_injective (hashOf v) (fits v rfl)⟩
  | get hash =>
    have stored := holds.entries hash
    simp only [recordBytes, recordMap, getRecord, stored]
    cases found : m.lookup hash with
    | none => exact ⟨rfl, holds⟩
    | some v =>
      have back := c.read_encode (holds.fits hash v found)
      simp only [Option.map_some, back, true_and, holds]

variable [Blake3 H] (ed : Ed25519)

/-- The database of sleet. The encoding of a cell reads its inputs in some order. -/
def txBytes (db : ByteStore) : Listing (Input H) × TxCall H → TxAnswer H × ByteStore
  | (_, .record (.isKnown hash)) => (.record (.known (isKnown db hash)), db)
  | (order, .record (.insert tx)) =>
    let (old, db') := insertTx ed order db tx
    (.record (.inserted old), db')
  | (order, .record (.get hash)) => (.record (.got (getTx ed order db hash)), db)
  | (order, .isAcceptedTx hash) => (.checked (isAcceptedTx ed order db hash), db)
  | (order, .isRemovedTx hash) => (.checked (isRemovedTx ed order db hash), db)
  | (order, .cannotBeAccepted hash) => (.checked (cannotBeAccepted ed order db hash), db)
  | (order, .updateAndFetch hash f) =>
    let (tx, db') := updateAndFetch ed order db hash f
    (.updated tx, db')
  | (order, .setStatus hash status) =>
    let (done, db') := setStatus ed order db hash status
    (.set done, db')

/-- The error of the map of transactions. -/
def ofMap {α : Type} : Except Subzero.StorageError α → Except Error α
  | .ok a => .ok a
  | .error .invalidTx => .error .invalidTx

/-- The map of transactions that sleet is modelled with. -/
def txMap (c : Codec (Tx H)) (db : TxDb H) :
    Listing (Input H) × TxCall H → TxAnswer H × TxDb H
  | (_, .record (.isKnown hash)) => (.record (.known (db.isKnownTx hash)), db)
  | (_, .record (.insert tx)) =>
    (.record (.inserted ((db.lookup tx.hash).map c.encode)), db.insertTx tx)
  | (_, .record (.get hash)) =>
    (.record (.got (ofMap ((db.getTx hash).map fun tx => (hash, tx)))), db)
  | (_, .isAcceptedTx hash) => (.checked (ofMap (db.isAcceptedTx hash)), db)
  | (_, .isRemovedTx hash) => (.checked (ofMap (db.isRemovedTx hash)), db)
  | (_, .cannotBeAccepted hash) => (.checked (ofMap (db.cannotBeAccepted hash)), db)
  | (_, .updateAndFetch hash f) =>
    match HashMap.updateAndFetch db hash f with
    | (some tx, db') => (.updated (.ok tx), db')
    | (none, db') => (.updated (.error .invalidTx), db')
  | (_, .setStatus hash status) =>
    match db.setStatus hash status with
    | .ok db' => (.set (.ok ()), db')
    | .error error => (.set (ofMap (.error error)), db)

/-- The transactions that a call stores are values of the source's types. -/
def TxCall.Sized (ed : Ed25519) : TxCall H → Prop
  | .record (.insert tx) => TxSized ed tx
  | .updateAndFetch _ f => ∀ old tx, (∀ t, old = some t → TxSized ed t) → f old = some tx →
      TxSized ed tx
  | _ => True

section Simulation
variable {ed : Ed25519} {order : Listing (Input H)} {db : ByteStore} {m : TxDb H}
  (holds : Holds hashBytes (Encoding.tx ed order) db m)
include holds

omit [Blake3 H] in
theorem getTx_eq (hash : H) :
    getTx ed order db hash = ofMap ((m.getTx hash).map fun tx => (hash, tx)) := by
  rw [getTx, getRecord, holds.entries, TxDb.getTx]
  cases found : m.lookup hash with
  | none => rfl
  | some tx =>
    have back := (Encoding.tx ed order).read_encode (holds.fits hash tx found)
    simp only [Option.map_some, back]
    rfl

omit [Blake3 H] in
theorem checkStatus_eq (test : TxStatus → Bool) (hash : H) :
    checkStatus ed order test db hash = ofMap (m.checkStatus hash test) := by
  rw [checkStatus, holds.entries, TxDb.checkStatus]
  cases found : m.lookup hash with
  | none => rfl
  | some tx =>
    have back := (Encoding.tx ed order).read_encode (holds.fits hash tx found)
    simp only [Option.map_some, back]
    rfl

omit [Blake3 H] in
theorem updateAndFetch_eq (hash : H) {f : Option (Tx H) → Option (Tx H)}
    (sized : ∀ old tx, (∀ t, old = some t → TxSized ed t) → f old = some tx → TxSized ed tx) :
    (updateAndFetch ed order db hash f).1 =
        (match (HashMap.updateAndFetch m hash f).1 with
          | some tx => .ok tx
          | none => .error .invalidTx) ∧
      Holds hashBytes (Encoding.tx ed order) (updateAndFetch ed order db hash f).2
        (HashMap.updateAndFetch m hash f).2 := by
  have old : ∀ t, m.lookup hash = some t → TxSized ed t :=
    fun t found => tx_fits_iff.mp (holds.fits hash t found)
  have new : ∀ tx, f (m.lookup hash) = some tx → (Encoding.tx ed order).fits tx :=
    fun tx changed => tx_fits_iff.mpr (sized _ tx old changed)
  obtain ⟨bytes, held⟩ := holds.update hashBytes_injective hash new
  unfold updateAndFetch
  rcases result : HashMap.updateAndFetch db (hashBytes hash) ((Encoding.tx ed order).lift f)
    with ⟨stored, db'⟩
  rw [result, HashMap.updateAndFetch_fst] at bytes
  rw [result] at held
  rw [HashMap.updateAndFetch_fst]
  cases changed : f (m.lookup hash) with
  | none =>
    rw [changed] at bytes
    obtain rfl : stored = none := bytes
    exact ⟨rfl, held⟩
  | some tx =>
    rw [changed] at bytes
    obtain rfl : stored = some ((Encoding.tx ed order).encode tx) := bytes
    have back := (Encoding.tx ed order).read_encode (new tx changed)
    simp only [back, true_and, held]

omit [Blake3 H] in
/-- A missing transaction is an error, and nothing is deleted. -/
theorem setStatus_eq (hash : H) (status : TxStatus) :
    (setStatus ed order db hash status).1 = ofMap ((m.setStatus hash status).map fun _ => ()) ∧
      Holds hashBytes (Encoding.tx ed order) (setStatus ed order db hash status).2
        (match m.setStatus hash status with
          | .ok m' => m'
          | .error _ => m) := by
  have keeps : ∀ old tx, (∀ t, old = some t → TxSized ed t) →
      old.map (fun t : Tx H => { t with status := status }) = some tx → TxSized ed tx := by
    intro old tx sized changed
    obtain ⟨t, here, rfl⟩ := Option.map_eq_some_iff.mp changed
    exact ⟨(sized t here).parents, (sized t here).cell⟩
  obtain ⟨answer, held⟩ := updateAndFetch_eq holds hash keeps
  simp only [setStatus, answer, HashMap.updateAndFetch_fst, TxDb.setStatus]
  simp only [HashMap.updateAndFetch] at held
  cases found : m.lookup hash with
  | none =>
    rw [found, Option.map_none] at held
    have same : m.erase hash = m := by
      apply Finmap.ext_lookup
      intro k
      rw [HashMap.lookup_erase_ite]
      split
      · subst k
        exact found.symm
      · rfl
    exact ⟨rfl, same ▸ held⟩
  | some tx =>
    rw [found, Option.map_some] at held
    exact ⟨rfl, held⟩

end Simulation

/-- Related databases answer a call on transactions alike, and stay related. -/
theorem tx_simulates {ed : Ed25519} (order : Listing (Input H)) {db : ByteStore} {m : TxDb H}
    {call : Listing (Input H) × TxCall H} (holds : Holds hashBytes (Encoding.tx ed order) db m)
    (sized : call.2.Sized ed) :
    (txBytes ed db call).1 = (txMap (Encoding.tx ed order) m call).1 ∧
      Holds hashBytes (Encoding.tx ed order) (txBytes ed db call).2
        (txMap (Encoding.tx ed order) m call).2 := by
  obtain ⟨own, call⟩ := call
  rw [tx_unique ed order own] at holds ⊢
  cases call with
  | record call =>
    cases call with
    | isKnown hash =>
      have same := holds.contains hash
      simp only [txBytes, txMap, isKnown, TxDb.isKnownTx, same, true_and, holds]
    | insert tx =>
      have old := holds.entries tx.hash
      exact ⟨congrArg (TxAnswer.record ∘ RecordAnswer.inserted) old,
        holds.insert hashBytes_injective tx.hash (tx_fits_iff.mpr sized)⟩
    | get hash => exact ⟨congrArg (TxAnswer.record ∘ RecordAnswer.got) (getTx_eq holds hash), holds⟩
  | isAcceptedTx hash => exact ⟨congrArg TxAnswer.checked (checkStatus_eq holds _ hash), holds⟩
  | isRemovedTx hash => exact ⟨congrArg TxAnswer.checked (checkStatus_eq holds _ hash), holds⟩
  | cannotBeAccepted hash => exact ⟨congrArg TxAnswer.checked (checkStatus_eq holds _ hash), holds⟩
  | updateAndFetch hash f =>
    obtain ⟨answer, held⟩ := updateAndFetch_eq holds hash sized
    simp only [txBytes, txMap, answer]
    rcases result : HashMap.updateAndFetch m hash f with ⟨_ | tx, m'⟩ <;>
      simpa only [result, true_and] using held
  | setStatus hash status =>
    obtain ⟨answer, held⟩ := setStatus_eq holds hash status
    simp only [txBytes, txMap, answer]
    cases result : m.setStatus hash status <;> simp only [result] at held ⊢ <;>
      exact ⟨rfl, held⟩

/-- The database of hail. -/
def hailBlockBytes [BlockDigest H] (db : ByteStore) :
    Listing (Input H) × RecordCall H (HailBlock H) → RecordAnswer H (HailBlock H) × ByteStore
  | (_, .isKnown hash) => (.known (isKnown db hash), db)
  | (order, .insert block) =>
    let (old, db') := insertHailBlock ed order db block
    (.inserted old, db')
  | (order, .get hash) => (.got (getHailBlock ed order db hash), db)

def cellBytes (db : ByteStore) :
    Listing (Input H) × RecordCall H (Cell H) → RecordAnswer H (Cell H) × ByteStore
  | (_, .isKnown hash) => (.known (isKnown db hash), db)
  | (order, .insert cell) =>
    let (old, db') := insertCell ed order db cell
    (.inserted old, db')
  | (order, .get hash) => (.got (getCell ed order db hash), db)

omit [Blake3 H] [HashBytes H] in
def hailBlockMap [BlockDigest H] (c : Codec (HailBlock H)) (m : HashMap H (HailBlock H))
    (call : Listing (Input H) × RecordCall H (HailBlock H)) :
    RecordAnswer H (HailBlock H) × HashMap H (HailBlock H) :=
  recordMap c HailBlock.hash .invalidHailBlock m call.2

omit [HashBytes H] in
def cellMap (c : Codec (Cell H)) (m : HashMap H (Cell H))
    (call : Listing (Input H) × RecordCall H (Cell H)) :
    RecordAnswer H (Cell H) × HashMap H (Cell H) :=
  recordMap c Cell.hash .invalidCell m call.2

omit [Blake3 H] in
theorem hailBlock_simulates [BlockDigest H] {ed : Ed25519} (order : Listing (Input H))
    {db : ByteStore} {m : HashMap H (HailBlock H)}
    {call : Listing (Input H) × RecordCall H (HailBlock H)}
    (holds : Holds hashBytes (hailBlock ed order) db m)
    (sized : ∀ b, call.2 = .insert b → BlockSized ed b.block) :
    (hailBlockBytes ed db call).1 = (hailBlockMap (hailBlock ed order) m call).1 ∧
      Holds hashBytes (hailBlock ed order) (hailBlockBytes ed db call).2
        (hailBlockMap (hailBlock ed order) m call).2 := by
  obtain ⟨own, call⟩ := call
  rw [hailBlock_unique ed order own] at holds ⊢
  have family : hailBlockBytes ed db (own, call) =
      recordBytes (hailBlock ed own) HailBlock.hash .invalidHailBlock db call := by
    cases call <;> rfl
  rw [family]
  exact record_simulates holds fun b offered => hailBlock_fits own (sized b offered)

theorem cell_simulates {ed : Ed25519} (order : Listing (Input H)) {db : ByteStore}
    {m : HashMap H (Cell H)} {call : Listing (Input H) × RecordCall H (Cell H)}
    (holds : Holds hashBytes (Encoding.cell ed order) db m)
    (sized : ∀ c, call.2 = .insert c → Sized ed c) :
    (cellBytes ed db call).1 = (cellMap (Encoding.cell ed order) m call).1 ∧
      Holds hashBytes (Encoding.cell ed order) (cellBytes ed db call).2
        (cellMap (Encoding.cell ed order) m call).2 := by
  obtain ⟨own, call⟩ := call
  rw [cell_unique ed order own] at holds ⊢
  have family : cellBytes ed db (own, call) =
      recordBytes (Encoding.cell ed own) Cell.hash .invalidCell db call := by
    cases call <;> rfl
  rw [family]
  exact record_simulates holds fun c offered => cell_fits own (sized c offered)

/-- Whatever is called, the databases answer as maps of records do, and hold these maps; so
every record that was stored is read back. -/
theorem stores_answer_as_maps [BlockDigest H] (ed : Ed25519) (order : Listing (Input H)) :
    Refines hashBytes (Encoding.tx ed order) (fun call => call.2.Sized ed) (txBytes ed)
        (txMap (Encoding.tx ed order)) ∧
      Refines hashBytes (hailBlock ed order)
        (fun call => ∀ b, call.2 = .insert b → BlockSized ed b.block) (hailBlockBytes ed)
        (hailBlockMap (hailBlock ed order)) ∧
      Refines hashBytes (Encoding.cell ed order) (fun call => ∀ c, call.2 = .insert c → Sized ed c)
        (cellBytes ed) (cellMap (Encoding.cell ed order)) :=
  ⟨.of_simulates fun _ _ _ => tx_simulates order,
    .of_simulates fun _ _ _ => hailBlock_simulates order,
    .of_simulates fun _ _ _ => cell_simulates order⟩

end Machines

section Sample

def sampleTx (status : TxStatus) : Tx (BitVec 256) :=
  ⟨[7], sampleCell [firstSpend, secondSpend], status⟩

/-- A transaction is stored, accepted and read again, whatever its hash is. -/
def sampleCalls [Blake3 (BitVec 256)] (own : Listing (Input (BitVec 256))) :
    List (Listing (Input (BitVec 256)) × TxCall (BitVec 256)) :=
  let hash := (sampleTx .pending).hash
  [(own, .record (.insert (sampleTx .pending))), (own, .setStatus hash .accepted),
    (own, .isAcceptedTx hash), (own, .record (.get hash))]

theorem sampleCalls_sized [Blake3 (BitVec 256)] (own : Listing (Input (BitVec 256))) :
    ∀ call ∈ sampleCalls own, call.2.Sized dalek := by
  have sized : TxSized dalek (sampleTx .pending) := ⟨by decide, sampleCell_sized⟩
  simp [sampleCalls, TxCall.Sized, sized]

theorem stores_answer_as_maps_accepted :
    ∀ (_ : Blake3 (BitVec 256)) (own : Listing (Input (BitVec 256))),
      (∀ call ∈ sampleCalls own, call.2.Sized dalek) ∧
        (answers (txBytes dalek) ∅ (sampleCalls own)).1 =
          [.record (.inserted none), .set (.ok ()), .checked (.ok true),
            .record (.got (.ok ((sampleTx .pending).hash, sampleTx .accepted)))] := by
  intro _ own
  have sized := sampleCalls_sized own
  obtain ⟨same, -⟩ := (stores_answer_as_maps dalek own).1 _ sized
  refine ⟨sized, same.trans ?_⟩
  simp [sampleCalls, answers, txMap, ofMap, TxDb.insertTx, TxDb.setStatus, TxDb.isAcceptedTx,
    TxDb.checkStatus, TxDb.getTx, sampleTx, Except.map]

end Sample

end Storage
end Subzero
