import Mathlib.Data.Finset.Sort
import Mathlib.Data.Prod.Lex
import Subzero.Storage.Block

/-! The order of the block store: the bytes of two keys compare as their heights do, and as
their hashes do at one height. -/
namespace Subzero.Storage

/-- The entry with the least key. -/
def Db.first {H : Type} (db : Db H) : Option (List Byte × Block H) :=
  if stored : db.keys.Nonempty then
    let k := db.keys.min' stored
    (db.lookup k).map fun block => (k, block)
  else none

/-- The entries from one key up to another, in ascending order. -/
def Db.range {H : Type} (db : Db H) (start stop : List Byte) : List (List Byte × Block H) :=
  (db.keys.filter fun k => start ≤ k ∧ k < stop).sort.filterMap fun k =>
    (db.lookup k).map fun block => (k, block)

section Queries
variable {H : Type} [HashBytes H]

/-- The first block and its hash, which is read from the key. -/
def getGenesis (db : Db H) : Option (Except StorageError (H × Block H)) :=
  match db.first with
  | some (k, block) => (Key.readFrom k).map fun key => .ok (key.hash, block)
  | none => some (.error .invalidGenesis)

def getBlocksInRange (db : Db H) (startHeight : BlockHeight) (startHash : H)
    (endHeight : BlockHeight) (endHash : H) : List (Block H) :=
  let start : Key H := ⟨startHeight, startHash⟩
  let stop : Key H := ⟨endHeight, endHash⟩
  (db.range start.asBytes stop.asBytes).reverse.map Prod.snd

/-- Returns the block that was stored under the key before. -/
def insertBlock [BlockDigest H] (db : Db H) (block : Block H) : Option (Block H) × Db H :=
  (db.lookup (keyOf block).asBytes, db.insert (keyOf block).asBytes block)

/-- A key as a height and the bytes of a hash, in lexicographic order. -/
def Key.rank (key : Key H) : Nat ×ₗ List Byte :=
  toLex (key.height.toNat, HashBytes.toBytes key.hash)

theorem asBytes_lt_iff (key key' : Key H) : key.asBytes < key'.asBytes ↔ key.rank < key'.rank := by
  have fits : key.height.toNat < 256 ^ 8 := key.height.toNat_lt
  have fits' : key'.height.toNat < 256 ^ 8 := key'.height.toNat_lt
  rw [Key.asBytes, Key.asBytes, append_lt_append_iff (by simp), bigEndian_lt_iff fits fits',
    bigEndian_inj fits fits', Key.rank, Key.rank, Prod.Lex.toLex_lt_toLex]

theorem asBytes_le_iff (key key' : Key H) : key.asBytes ≤ key'.asBytes ↔ key.rank ≤ key'.rank := by
  rw [← not_lt, asBytes_lt_iff, not_lt]

theorem asBytes_injective : Function.Injective (Key.asBytes (H := H)) := by
  intro key key' same
  have read := readFrom_asBytes key
  rw [same, readFrom_asBytes] at read
  exact (Option.some.inj read).symm

theorem height_le_of_rank_le {key key' : Key H} (le : key.rank ≤ key'.rank) :
    key.height ≤ key'.height := by
  rw [UInt64.le_iff_toNat_le]
  rcases Prod.Lex.toLex_le_toLex.mp le with lower | ⟨same, _⟩
  · exact lower.le
  · exact same.le

end Queries

theorem Db.mem_range {H : Type} {db : Db H} {start stop k : List Byte} {block : Block H} :
    (k, block) ∈ db.range start stop ↔ db.lookup k = some block ∧ start ≤ k ∧ k < stop := by
  simp only [Db.range, List.mem_filterMap, Finset.mem_sort, Finset.mem_filter, Finmap.mem_keys,
    Option.map_eq_some_iff, Prod.mk.injEq]
  constructor
  · rintro ⟨_, ⟨_, within⟩, _, found, rfl, rfl⟩
    exact ⟨found, within⟩
  · rintro ⟨found, within⟩
    exact ⟨k, ⟨Finmap.mem_iff.mpr ⟨block, found⟩, within⟩, block, found, rfl, rfl⟩

theorem Db.pairwise_range {H : Type} (db : Db H) (start stop : List Byte) :
    (db.range start stop).Pairwise fun entry entry' => entry.1 < entry'.1 := by
  refine List.Pairwise.filterMap _ ?_ (Finset.sortedLT_sort _).pairwise
  intro k k' before entry found entry' found'
  obtain ⟨_, _, rfl⟩ := Option.map_eq_some_iff.mp found
  obtain ⟨_, _, rfl⟩ := Option.map_eq_some_iff.mp found'
  exact before

variable {H : Type} [DecidableEq H] [BlockDigest H] [HashBytes H]
variable {blocks : List (Block H)} {block : Block H}

omit [DecidableEq H] in
/-- The store after some blocks were inserted one by one. -/
def insertBlocks (blocks : List (Block H)) : Db H :=
  blocks.foldl (fun db block => (insertBlock db block).2) ∅

omit [HashBytes H] in
/-- The block inserted last under a key. -/
def latest (blocks : List (Block H)) (key : Key H) : Option (Block H) :=
  blocks.reverse.find? fun block => keyOf block = key

omit [HashBytes H] in
/-- No block with the key of this one was inserted after it. -/
def Stored (blocks : List (Block H)) (block : Block H) : Prop :=
  latest blocks (keyOf block) = some block

section Latest
omit [HashBytes H]

theorem latest_some {key : Key H} (found : latest blocks key = some block) :
    block ∈ blocks ∧ keyOf block = key := by
  have member : block ∈ blocks.reverse := List.mem_of_find?_eq_some found
  have test : decide (keyOf block = key) = true :=
    List.find?_some (p := fun block => keyOf block = key) found
  exact ⟨List.mem_reverse.mp member, of_decide_eq_true test⟩

theorem exists_latest (member : block ∈ blocks) :
    ∃ newest, latest blocks (keyOf block) = some newest := by
  rw [← Option.isSome_iff_exists, latest, List.find?_isSome]
  exact ⟨block, List.mem_reverse.mpr member, decide_eq_true rfl⟩

/-- Without two blocks of one key, everything that was inserted is stored. -/
theorem stored_iff_mem
    (distinct : ∀ block ∈ blocks, ∀ other ∈ blocks, keyOf block = keyOf other → block = other)
    (block : Block H) : Stored blocks block ↔ block ∈ blocks := by
  constructor
  · intro stored
    exact (latest_some stored).1
  · intro member
    obtain ⟨newest, found⟩ := exists_latest member
    obtain ⟨inserted, same⟩ := latest_some found
    rw [Stored, found, distinct newest inserted block member same]

end Latest

theorem lookup_insertBlocks (blocks : List (Block H)) (key : Key H) :
    (insertBlocks blocks).lookup key.asBytes = latest blocks key := by
  induction blocks using List.reverseRecOn with
  | nil => rfl
  | append_singleton blocks block ih =>
    have last : insertBlocks (blocks ++ [block]) =
        (insertBlocks blocks).insert (keyOf block).asBytes block := by
      rw [insertBlocks, List.foldl_append]
      rfl
    have newest : latest (blocks ++ [block]) key =
        if keyOf block = key then some block else latest blocks key := by
      rw [latest, List.reverse_append, List.reverse_singleton, List.singleton_append,
        List.find?_cons]
      by_cases same : keyOf block = key <;> simp [same, latest]
    rw [last, newest, HashMap.lookup_insert_ite, ih]
    by_cases same : keyOf block = key
    · rw [if_pos same, if_pos (congrArg Key.asBytes same.symm)]
    · rw [if_neg same, if_neg fun bytes => same (asBytes_injective bytes.symm)]

theorem Stored.lookup (stored : Stored blocks block) :
    (insertBlocks blocks).lookup (keyOf block).asBytes = some block :=
  (lookup_insertBlocks blocks _).trans stored

omit [DecidableEq H] in
theorem keyed_insertBlocks (blocks : List (Block H)) :
    ∀ k ∈ (insertBlocks blocks).keys, ∃ key : Key H, k = key.asBytes := by
  induction blocks using List.reverseRecOn with
  | nil => simp [insertBlocks]
  | append_singleton blocks block ih =>
    rw [insertBlocks, List.foldl_append]
    exact (Keyed.insert ih (keyOf block) block).keyed

theorem stored_of_lookup {k : List Byte} (found : (insertBlocks blocks).lookup k = some block) :
    Stored blocks block ∧ k = (keyOf block).asBytes := by
  have member : k ∈ (insertBlocks blocks).keys :=
    HashMap.mem_keys_of_lookup found
  obtain ⟨key, rfl⟩ := keyed_insertBlocks blocks k member
  rw [lookup_insertBlocks] at found
  obtain rfl : keyOf block = key := (latest_some found).2
  exact ⟨found, rfl⟩

theorem mem_keys_insertBlocks (member : block ∈ blocks) :
    (keyOf block).asBytes ∈ (insertBlocks blocks).keys := by
  obtain ⟨newest, found⟩ := exists_latest member
  rw [← lookup_insertBlocks] at found
  exact HashMap.mem_keys_of_lookup found

theorem keys_nonempty (some : blocks ≠ []) : (insertBlocks blocks).keys.Nonempty := by
  obtain ⟨block, member⟩ := List.exists_mem_of_ne_nil blocks some
  exact ⟨_, mem_keys_insertBlocks member⟩

/-- A key of the store with the block under it. -/
theorem entry_of_mem_keys {k : List Byte} (member : k ∈ (insertBlocks blocks).keys) :
    ∃ block, Stored blocks block ∧ k = (keyOf block).asBytes ∧
      (insertBlocks blocks).lookup k = some block := by
  obtain ⟨block, found⟩ := HashMap.mem_keys_iff.mp member
  obtain ⟨stored, bytes⟩ := stored_of_lookup found
  exact ⟨block, stored, bytes, found⟩

theorem getGenesis_lowest (some : blocks ≠ []) :
    ∃ block, Stored blocks block ∧ (∀ other ∈ blocks, block.height ≤ other.height) ∧
      getGenesis (insertBlocks blocks) = .some (.ok (block.hash, block)) := by
  have nonempty := keys_nonempty some
  obtain ⟨block, stored, bytes, found⟩ := entry_of_mem_keys (Finset.min'_mem _ nonempty)
  refine ⟨block, stored, fun other member => ?_, ?_⟩
  · have least := Finset.min'_le _ _ (mem_keys_insertBlocks member)
    rw [bytes, asBytes_le_iff] at least
    exact height_le_of_rank_le least
  · simp only [getGenesis, Db.first, dif_pos nonempty, found, Option.map_some, bytes,
      readFrom_asBytes]
    rfl

theorem getLastAccepted_highest (some : blocks ≠ []) :
    ∃ block, Stored blocks block ∧ (∀ other ∈ blocks, other.height ≤ block.height) ∧
      getLastAccepted (insertBlocks blocks) = .some (.ok (block.hash, block)) := by
  have nonempty := keys_nonempty some
  obtain ⟨block, stored, bytes, found⟩ := entry_of_mem_keys (Finset.max'_mem _ nonempty)
  refine ⟨block, stored, fun other member => ?_, ?_⟩
  · have greatest := Finset.le_max' _ _ (mem_keys_insertBlocks member)
    rw [bytes, asBytes_le_iff] at greatest
    exact height_le_of_rank_le greatest
  · simp only [getLastAccepted, Db.last, dif_pos nonempty, found, Option.map_some, bytes,
      readFrom_asBytes]
    rfl

theorem mem_getBlocksInRange {start stop : Key H} :
    block ∈ getBlocksInRange (insertBlocks blocks) start.height start.hash stop.height stop.hash ↔
      Stored blocks block ∧ start.rank ≤ (keyOf block).rank ∧ (keyOf block).rank < stop.rank := by
  simp only [getBlocksInRange, List.mem_map, List.mem_reverse]
  constructor
  · rintro ⟨⟨k, _⟩, listed, rfl⟩
    obtain ⟨found, above, below⟩ := Db.mem_range.mp listed
    obtain ⟨stored, rfl⟩ := stored_of_lookup found
    exact ⟨stored, (asBytes_le_iff _ _).mp above, (asBytes_lt_iff _ _).mp below⟩
  · rintro ⟨stored, above, below⟩
    exact ⟨((keyOf block).asBytes, block), Db.mem_range.mpr ⟨stored.lookup,
      (asBytes_le_iff _ _).mpr above, (asBytes_lt_iff _ _).mpr below⟩, rfl⟩

theorem pairwise_getBlocksInRange (blocks : List (Block H)) (start stop : Key H) :
    (getBlocksInRange (insertBlocks blocks) start.height start.hash stop.height stop.hash).Pairwise
      fun block next => (keyOf next).rank < (keyOf block).rank := by
  rw [getBlocksInRange, List.pairwise_map, List.pairwise_reverse]
  refine (Db.pairwise_range _ _ _).imp_of_mem ?_
  rintro ⟨k, block⟩ ⟨k', next⟩ listed listed' before
  obtain ⟨_, rfl⟩ := stored_of_lookup (Db.mem_range.mp listed).1
  obtain ⟨_, rfl⟩ := stored_of_lookup (Db.mem_range.mp listed').1
  exact (asBytes_lt_iff _ _).mp before

/-- Keys sort by height and hash and are read back, and so the queries of a store that was
filled in any order find the lowest block, the highest one and those of a range from the
highest down. -/
theorem block_keys_sort_by_height :
    (∀ key key' : Key H, key.asBytes < key'.asBytes ↔ key.rank < key'.rank) ∧
    (∀ key : Key H, Key.readFrom key.asBytes = some key) ∧
    ∀ blocks : List (Block H),
      ((∀ block ∈ blocks, ∀ other ∈ blocks, keyOf block = keyOf other → block = other) →
        ∀ block, Stored blocks block ↔ block ∈ blocks) ∧
      (blocks ≠ [] → ∃ block, Stored blocks block ∧
        (∀ other ∈ blocks, block.height ≤ other.height) ∧
        getGenesis (insertBlocks blocks) = some (.ok (block.hash, block))) ∧
      (blocks ≠ [] → ∃ block, Stored blocks block ∧
        (∀ other ∈ blocks, other.height ≤ block.height) ∧
        getLastAccepted (insertBlocks blocks) = some (.ok (block.hash, block))) ∧
      ∀ start stop : Key H, ∃ found,
        getBlocksInRange (insertBlocks blocks) start.height start.hash stop.height stop.hash =
          found ∧
        (∀ block, block ∈ found ↔ Stored blocks block ∧
          start.rank ≤ (keyOf block).rank ∧ (keyOf block).rank < stop.rank) ∧
        found.Pairwise fun block next => (keyOf next).rank < (keyOf block).rank := by
  refine ⟨asBytes_lt_iff, readFrom_asBytes, fun blocks => ?_⟩
  refine ⟨stored_iff_mem, getGenesis_lowest, getLastAccepted_highest, fun start stop => ?_⟩
  exact ⟨_, rfl, fun block => mem_getBlocksInRange, pairwise_getBlocksInRange blocks start stop⟩

/-- Three blocks of the heights 300, 2 and 255, whose last bytes do not sort as they do. -/
theorem block_keys_sort_three :
    ∃ blocks : List (Block (BitVec 256)), blocks.map Block.height = [300, 2, 255] ∧
      (∃ low, low.height ≤ 2 ∧ getGenesis (insertBlocks blocks) = some (.ok (low.hash, low))) ∧
      (∃ high, 300 ≤ high.height ∧
        getLastAccepted (insertBlocks blocks) = some (.ok (high.hash, high))) ∧
      (getBlocksInRange (insertBlocks blocks) 2 0 300 0).Pairwise
        fun block next => (keyOf next).rank < (keyOf block).rank := by
  obtain ⟨_, _, queries⟩ := block_keys_sort_by_height (H := BitVec 256)
  obtain ⟨_, lowest, highest, ranges⟩ := queries [onGenesis 300, onGenesis 2, onGenesis 255]
  obtain ⟨low, _, least, first⟩ := lowest (by decide)
  obtain ⟨high, _, greatest, last⟩ := highest (by decide)
  obtain ⟨_, rfl, _, descends⟩ := ranges ⟨2, 0⟩ ⟨300, 0⟩
  exact ⟨_, rfl, ⟨low, least (onGenesis 2) (by simp), first⟩,
    ⟨high, greatest (onGenesis 300) (by simp), last⟩, descends⟩

end Subzero.Storage
