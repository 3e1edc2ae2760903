import Mathlib.Data.List.Lex
import Mathlib.Data.Finset.Max
import Mathlib.Order.Fin.Basic
import Subzero.Lib.BigEndian
import Subzero.Lib.Outcome
import Subzero.Lib.Run
import Subzero.Hail.Block

/-! The block store: a map ordered by the bytes of its keys, which are a height in big
endian and a block hash. The store is to hold a chain of blocks from genesis on. -/
namespace Subzero.Storage

/-- Hashes are arrays of 32 bytes. -/
class HashBytes (H : Type) where
  toBytes : H → List Byte
  ofBytes : List Byte → H
  length_toBytes : ∀ h, (toBytes h).length = 32
  ofBytes_toBytes : ∀ h, ofBytes (toBytes h) = h

structure Key (H : Type) where
  height : BlockHeight
  hash : H
  deriving DecidableEq

/-- `storage::Error`, without the errors of the database and of the encoding. -/
inductive StorageError where
  | invalidGenesis
  | undefinedGenesis
  | invalidHeight
  | invalidPredecessor
  | invalidLast
  deriving DecidableEq

/-- A database of blocks, under the bytes of their keys. -/
abbrev Db (H : Type) := HashMap (List Byte) (Block H)

/-- The entry with the greatest key. -/
def Db.last {H : Type} (db : Db H) : Option (List Byte × Block H) :=
  if stored : db.keys.Nonempty then
    let k := db.keys.max' stored
    (db.lookup k).map fun block => (k, block)
  else none

variable {H : Type} [DecidableEq H] [BlockDigest H] [HashBytes H]
variable {db db' : Db H} {block : Block H}

omit [DecidableEq H] [BlockDigest H] in
def Key.asBytes (key : Key H) : List Byte :=
  bigEndian 8 key.height.toNat ++ HashBytes.toBytes key.hash

omit [DecidableEq H] [BlockDigest H] in
/-- Bytes of any other length than that of a key are refused. -/
def Key.readFrom (bytes : List Byte) : Option (Key H) :=
  if bytes.length = 40 then
    some ⟨UInt64.ofNat (ofBigEndian (bytes.take 8)), HashBytes.ofBytes (bytes.drop 8)⟩
  else none

omit [DecidableEq H] in
/-- The key that a block is stored under. -/
def keyOf (block : Block H) : Key H := ⟨block.height, block.hash⟩

omit [DecidableEq H] in
def acceptGenesis (db : Db H) (genesis : Block H) : Outcome StorageError (Db H) H :=
  .ok genesis.hash (db.insert (keyOf genesis).asBytes genesis)

/-- The height is compared with that of the last block minus one, a `u64`. -/
def acceptNextBlock (db : Db H) (block : Block H) : Outcome StorageError (Db H) H :=
  match db.last with
  | some (k, _) =>
    match Key.readFrom k with
    | some (key : Key H) =>
      if block.height ≠ key.height - 1 then .err .invalidHeight db
      else if block.predecessor ≠ some key.hash then .err .invalidPredecessor db
      else .ok block.hash (db.insert (keyOf block).asBytes block)
    | none => .err .invalidLast db
  | none => .err .undefinedGenesis db

omit [DecidableEq H] [BlockDigest H] in
/-- The last block and its hash, which is read from the key. `none` is the panic on bytes
that are no key. -/
def getLastAccepted (db : Db H) : Option (Except StorageError (H × Block H)) :=
  match db.last with
  | some (k, block) => (Key.readFrom k).map fun key => .ok (key.hash, block)
  | none => some (.error .invalidLast)

section Keys
omit [DecidableEq H] [BlockDigest H]

theorem length_asBytes (key : Key H) : key.asBytes.length = 40 := by
  simp [Key.asBytes, HashBytes.length_toBytes]

/-- A key is read back from its bytes. -/
theorem readFrom_asBytes (key : Key H) : Key.readFrom key.asBytes = some key := by
  have high : key.asBytes.take 8 = bigEndian 8 key.height.toNat :=
    List.take_left' (length_bigEndian 8 _)
  have low : key.asBytes.drop 8 = HashBytes.toBytes key.hash :=
    List.drop_left' (length_bigEndian 8 _)
  have fits : key.height.toNat < 256 ^ 8 := key.height.toNat_lt
  rw [Key.readFrom, if_pos (length_asBytes key), high, low, ofBigEndian_bigEndian fits,
    HashBytes.ofBytes_toBytes, UInt64.ofNat_toNat]

/-- The key of the last block. -/
def Db.lastKey (db : Db H) : Option (Key H) := db.last.bind fun entry => Key.readFrom entry.1

/-- Every entry is under the bytes of a key, and there is one. -/
structure Keyed (db : Db H) : Prop where
  stored : db.keys.Nonempty
  keyed : ∀ k ∈ db.keys, ∃ key : Key H, k = key.asBytes

theorem Keyed.last (keyed : Keyed db) :
    ∃ (key : Key H) (block : Block H), db.last = some (key.asBytes, block) ∧
      db.lastKey = some key := by
  have greatest : db.keys.max' keyed.stored ∈ db.keys := Finset.max'_mem _ _
  obtain ⟨key, bytes⟩ := keyed.keyed _ greatest
  obtain ⟨block, found⟩ := HashMap.mem_keys_iff.mp greatest
  have last : db.last = some (key.asBytes, block) := by
    simp only [Db.last, dif_pos keyed.stored, found, Option.map_some, bytes]
  refine ⟨key, block, last, ?_⟩
  rw [Db.lastKey, last, Option.bind_some, readFrom_asBytes]

theorem Keyed.insert (keyed : ∀ k ∈ db.keys, ∃ key : Key H, k = key.asBytes) (key : Key H)
    (block : Block H) : Keyed (Finmap.insert key.asBytes block db) := by
  constructor
  · rw [HashMap.keys_insert]
    exact Finset.insert_nonempty _ _
  · intro k member
    rw [HashMap.keys_insert] at member
    rcases Finset.mem_insert.mp member with rfl | old
    · exact ⟨key, rfl⟩
    · exact keyed k old

end Keys

/-- What a call does with an offered block, in terms of the last key. -/
theorem acceptNextBlock_eq (keyed : Keyed db) {key : Key H} (last : db.lastKey = some key)
    (block : Block H) :
    acceptNextBlock db block =
      if block.height ≠ key.height - 1 then .err .invalidHeight db
      else if block.predecessor ≠ some key.hash then .err .invalidPredecessor db
      else .ok block.hash (db.insert (keyOf block).asBytes block) := by
  obtain ⟨key', stored, found, lastKey⟩ := keyed.last
  obtain rfl : key' = key := Option.some.inj (lastKey.symm.trans last)
  simp only [acceptNextBlock, found, readFrom_asBytes]

/-- A block continues the chain if it is one above the last block and names it. -/
def Continues (db : Db H) (block : Block H) : Prop :=
  ∃ key, db.lastKey = some key ∧ block.height.toNat = key.height.toNat + 1 ∧
    block.predecessor = some key.hash

/-- A call accepts exactly the blocks that continue the chain, and a rejection leaves
the database as it was. -/
def Conforms (db : Db H) (block : Block H) : Prop :=
  ((∃ hash db', acceptNextBlock db block = .ok hash db') ↔ Continues db block) ∧
    ∀ error db', acceptNextBlock db block = .err error db' → db' = db

/-- The stored blocks have the heights 0, 1, …, and each names the one below. -/
def Chain (db : Db H) : Prop :=
  ∃ blocks : List (Block H), blocks ≠ [] ∧
    (∀ k (block : Block H), db.lookup k = some block ↔ block ∈ blocks ∧ k = (keyOf block).asBytes) ∧
    (∀ (i : Nat) (block : Block H), blocks[i]? = some block → block.height.toNat = i) ∧
    ∀ (i : Nat) (block above : Block H), blocks[i]? = some block →
      blocks[i + 1]? = some above → above.predecessor = some block.hash

/-- If the offered block names the last one, it is neither just above nor, as `u64`s,
just below it. -/
def Unrelated (db : Db H) (block : Block H) : Prop :=
  ∀ key ∈ db.lastKey, block.predecessor = some key.hash →
    block.height ≠ key.height - 1 ∧ block.height.toNat ≠ key.height.toNat + 1

instance (db : Db H) (block : Block H) : Decidable (Unrelated db block) :=
  inferInstanceAs (Decidable (∀ key ∈ db.lastKey, block.predecessor = some key.hash →
    block.height ≠ key.height - 1 ∧ block.height.toNat ≠ key.height.toNat + 1))

def step (db : Db H) (block : Block H) : Option (Db H) := (acceptNextBlock db block).state?

/-- A store with genesis only, as `acceptGenesis` leaves it. -/
def fresh (genesis : Block H) : Db H :=
  (∅ : Db H).insert (keyOf genesis).asBytes genesis

omit [DecidableEq H] in
theorem fresh_keyed (genesis : Block H) : Keyed (fresh genesis) :=
  .insert (by simp) (keyOf genesis) genesis

omit [DecidableEq H] in
theorem fresh_chain {genesis : Block H} (lowest : genesis.height = 0) : Chain (fresh genesis) := by
  refine ⟨[genesis], by simp, ?_, ?_, ?_⟩
  · intro k block
    rw [fresh, HashMap.lookup_insert_ite, List.mem_singleton]
    by_cases same : k = (keyOf genesis).asBytes
    · rw [if_pos same, Option.some.injEq]
      constructor
      · rintro rfl
        exact ⟨rfl, same⟩
      · exact fun h => h.1.symm
    · rw [if_neg same]
      simp only [Finmap.lookup_empty, reduceCtorEq, false_iff]
      rintro ⟨rfl, key⟩
      exact same key
  · intro i block found
    cases i with
    | zero =>
      obtain rfl : genesis = block := by simpa using found
      rw [lowest]
      rfl
    | succ i => simp at found
  · intro i block above _ next
    simp at next

theorem accepts_iff (keyed : Keyed db) {key : Key H} (last : db.lastKey = some key)
    (block : Block H) : (∃ hash db', acceptNextBlock db block = .ok hash db') ↔
      block.height = key.height - 1 ∧ block.predecessor = some key.hash := by
  rw [acceptNextBlock_eq keyed last]
  by_cases below : block.height = key.height - 1
  · by_cases names : block.predecessor = some key.hash <;> simp [below, names]
  · simp [below]

/-- A rejection leaves the database as it was. -/
theorem rejection_unchanged {error : StorageError}
    (rejected : acceptNextBlock db block = .err error db') : db' = db := by
  unfold acceptNextBlock at rejected
  split at rejected
  · split at rejected
    · split at rejected
      · cases rejected
        rfl
      · split at rejected
        · cases rejected
          rfl
        · contradiction
    · cases rejected
      rfl
  · cases rejected
    rfl

theorem not_above_and_below (height last : UInt64) (below : height = last - 1) :
    height.toNat ≠ last.toNat + 1 := by
  have bound := last.toNat_lt
  rw [below, UInt64.toNat_sub]
  have one : (1 : UInt64).toNat = 1 := rfl
  omega

/-- A call conforms exactly if the offered block is unrelated to the last one: the code
accepts the blocks just below it, where those just above should be. -/
theorem conforms_iff (keyed : Keyed db) (block : Block H) :
    Conforms db block ↔ Unrelated db block := by
  obtain ⟨key, _, _, last⟩ := keyed.last
  have only : ∀ key', db.lastKey = some key' → key' = key :=
    fun key' last' => Option.some.inj (last'.symm.trans last)
  have apart := not_above_and_below block.height key.height
  constructor
  · rintro ⟨verdict, _⟩ key' last' names
    obtain rfl := only key' last'
    rw [accepts_iff keyed last] at verdict
    constructor
    · intro below
      obtain ⟨key', last', above, _⟩ := verdict.mp ⟨below, names⟩
      obtain rfl := only key' last'
      exact apart below above
    · intro above
      exact apart (verdict.mpr ⟨key', last, above, names⟩).1 above
  · intro unrelated
    refine ⟨?_, fun error db' => rejection_unchanged⟩
    rw [accepts_iff keyed last]
    constructor
    · rintro ⟨below, names⟩
      exact absurd below (unrelated key last names).1
    · rintro ⟨key', last', above, names⟩
      exact absurd above (unrelated key' last' names).2

theorem Keyed.step (keyed : Keyed db) (taken : step db block = some db') : Keyed db' := by
  obtain ⟨key, _, _, last⟩ := keyed.last
  rw [Storage.step, acceptNextBlock_eq keyed last] at taken
  split at taken
  · cases Option.some.inj taken
    exact keyed
  · split at taken
    · cases Option.some.inj taken
      exact keyed
    · cases Option.some.inj taken
      exact .insert keyed.keyed (keyOf block) block

/-- An unrelated block is not stored. -/
theorem unrelated_unchanged (keyed : Keyed db) (unrelated : Unrelated db block)
    (taken : step db block = some db') : db' = db := by
  obtain ⟨key, _, _, last⟩ := keyed.last
  cases verdict : acceptNextBlock db block with
  | ok hash stored =>
    obtain ⟨below, names⟩ := (accepts_iff keyed last block).mp ⟨hash, stored, verdict⟩
    exact absurd below (unrelated key last names).1
  | err error same =>
    rw [Storage.step, verdict] at taken
    cases Option.some.inj taken
    exact rejection_unchanged verdict
  | panic =>
    rw [Storage.step, verdict] at taken
    contradiction

/-- From genesis on, every call conforms and the store always holds a chain exactly if
every offered block is unrelated to the last one. -/
theorem store_chain_iff_unrelated {genesis : Block H} (lowest : genesis.height = 0) {hash : H}
    {start : Db H} (opened : acceptGenesis ∅ genesis = .ok hash start)
    {steps : List (Db H × Block H)} {last : Db H} (run : Run step start steps last) :
    ((∀ x ∈ steps, Conforms x.1 x.2) ∧ ∀ db ∈ states steps last, Chain db) ↔
      Meets Unrelated steps := by
  obtain rfl : fresh genesis = start := by
    injection opened
  have keyed := (run.relates (fun _ _ => True) (fun _ _ => trivial) Keyed (fun _ _ => True)
    (fresh_keyed genesis) (fun _ => trivial) (fun _ _ _ _ _ => trivial)
    (fun _ _ _ keyed _ taken => ⟨keyed.step taken, trivial⟩)).2
  have offered : ∀ x ∈ steps, Keyed x.1 := fun x hx =>
    (keyed x.1 (List.mem_append_left _ (List.mem_map.mpr ⟨x, hx, rfl⟩))).1
  constructor
  · rintro ⟨conforms, _⟩ x hx
    exact (conforms_iff (offered x hx) x.2).mp (conforms x hx)
  · intro unrelated
    refine ⟨fun x hx => (conforms_iff (offered x hx) x.2).mpr (unrelated x hx), ?_⟩
    -- nothing is stored, so every state is the one with genesis only
    have same := (run.relates Unrelated unrelated (fun db => Keyed db ∧ db = fresh genesis)
      (fun _ _ => True) ⟨fresh_keyed genesis, rfl⟩ (fun _ => trivial) (fun _ _ _ _ _ => trivial)
      (by
        rintro db block db' ⟨keyed, only⟩ unrelated taken
        have kept := unrelated_unchanged keyed unrelated taken
        exact ⟨kept ▸ ⟨keyed, only⟩, trivial⟩)).2
    intro db hdb
    rw [(same db hdb).1.2]
    exact fresh_chain lowest

section Sample

/-- Hashes of 32 bytes as numbers. -/
instance : HashBytes (BitVec 256) where
  toBytes h := bigEndian 32 h.toNat
  ofBytes bytes := BitVec.ofNat 256 (ofBigEndian bytes)
  length_toBytes h := length_bigEndian 32 h.toNat
  ofBytes_toBytes h := by
    have fits : h.toNat < 256 ^ 32 := h.isLt
    rw [ofBigEndian_bigEndian fits, BitVec.ofNat_toNat, BitVec.setWidth_eq]

/-- Blocks are told apart by their heights and VRF outputs. -/
instance : BlockDigest (BitVec 256) where
  ofBlock b := BitVec.ofNat 256 (b.height.toNat + 1) + b.vrfOut
  ofVrf id vrf := id.bytes + vrf

def genesis : Block (BitVec 256) := ⟨none, 0, 0, []⟩

/-- A block that names genesis. -/
def onGenesis (height : BlockHeight) : Block (BitVec 256) := ⟨some genesis.hash, height, 0, []⟩

theorem fresh_lastKey : (fresh genesis).lastKey = some (keyOf genesis) := by decide +kernel

theorem onGenesis_continues : Continues (fresh genesis) (onGenesis 1) :=
  ⟨keyOf genesis, fresh_lastKey, rfl, rfl⟩

theorem top_not_continues : ¬ Continues (fresh genesis) (onGenesis (0 - 1)) := by
  rintro ⟨key, last, above, _⟩
  obtain rfl : keyOf genesis = key := Option.some.inj (fresh_lastKey.symm.trans last)
  exact absurd above (by decide)

/-- The first block on genesis is refused for its height, and the block of the greatest
height is stored in its place. -/
theorem store_refuses_height_one : ∃ steps last,
    acceptGenesis ∅ genesis = .ok genesis.hash (fresh genesis) ∧
    Run step (fresh genesis) steps last ∧
    (fresh genesis, onGenesis 1) ∈ steps ∧ Continues (fresh genesis) (onGenesis 1) ∧
    (∀ hash db, acceptNextBlock (fresh genesis) (onGenesis 1) ≠ .ok hash db) ∧
    (fresh genesis, onGenesis (0 - 1)) ∈ steps ∧
    ¬ Continues (fresh genesis) (onGenesis (0 - 1)) ∧
    last.lookup (keyOf (onGenesis (0 - 1))).asBytes = some (onGenesis (0 - 1)) := by
  have found : (exec step (fresh genesis) [onGenesis 1, onGenesis (0 - 1)]).any (fun run =>
      decide ((fresh genesis, onGenesis 1) ∈ run.1 ∧ (fresh genesis, onGenesis (0 - 1)) ∈ run.1 ∧
        run.2.lookup (keyOf (onGenesis (0 - 1))).asBytes = some (onGenesis (0 - 1)))) = true := by
    decide +kernel
  obtain ⟨steps, last, run, facts⟩ := exec_any found
  obtain ⟨first, second, stored⟩ := of_decide_eq_true facts
  have refused : ∀ hash db, acceptNextBlock (fresh genesis) (onGenesis 1) ≠ .ok hash db := by
    intro hash db accepted
    have below := ((accepts_iff (fresh_keyed genesis) fresh_lastKey _).mp ⟨hash, db, accepted⟩).1
    exact absurd below (by decide)
  exact ⟨steps, last, rfl, run, first, onGenesis_continues, refused, second, top_not_continues,
    stored⟩

/-- Blocks that skip a height or name no stored block are refused. -/
theorem store_chain_iff_unrelated_two : ∃ steps last, Run step (fresh genesis) steps last ∧
    genesis.height = 0 ∧ steps.length = 2 ∧
    (∀ x ∈ steps, Conforms x.1 x.2) ∧ ∀ db ∈ states steps last, Chain db := by
  have found : (exec step (fresh genesis) [onGenesis 2, ⟨some 7, 1, 0, []⟩]).any (fun run =>
      decide (run.1.length = 2 ∧ ∀ x ∈ run.1, Unrelated x.1 x.2)) = true := by
    decide +kernel
  obtain ⟨steps, last, run, facts⟩ := exec_any found
  obtain ⟨two, unrelated⟩ := of_decide_eq_true facts
  exact ⟨steps, last, run, rfl, two, (store_chain_iff_unrelated rfl rfl run).mpr unrelated⟩

end Sample
end Subzero.Storage
